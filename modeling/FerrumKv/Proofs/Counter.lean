import FerrumKv.Counter
import FerrumKv.Lib.Runs
import FerrumKv.Proofs.Argv
import FerrumKv.Proofs.Effects

/-!
# Counters are exact

`counting_exact`: along every sequence of counting requests for a key, between any commands that
leave the key alone, each request is answered with the exact sum or refused without an effect. The
steps are what a request builds (`CounterFrame.built`), what `INCRBY` does to a counter
(`incrBy_counts`), and that a command which does not name a key leaves it alone (`exec_spares`).
-/

namespace FerrumKv

open KvEngine
open Partial (IsI64)

theorem isI64_toInt (n : Int64) : IsI64 n.toInt := ⟨n.le_toInt, n.toInt_lt⟩

theorem toInt_ofInt_of_isI64 {z : ℤ} (h : IsI64 z) : (Int64.ofInt z).toInt = z :=
  Int64.toInt_ofInt_of_le h.1 h.2

theorem toInt_neg_of_ne_min {n : Int64} (h : n.toInt ≠ -2 ^ 63) : (-n).toInt = -n.toInt := by
  have hn := isI64_toInt n
  unfold IsI64 at hn
  rw [Int64.toInt_neg]
  exact Int.bmod_eq_of_le (by omega) (by omega)

theorem checkedAdd_eq_some {a b : Int64} (h : IsI64 (a.toInt + b.toInt)) :
    ∃ c, checkedAdd a b = some c ∧ c.toInt = a.toInt + b.toInt :=
  ⟨_, if_pos ⟨h.1, h.2⟩, toInt_ofInt_of_isI64 h⟩

theorem checkedAdd_eq_none {a b : Int64} (h : ¬ IsI64 (a.toInt + b.toInt)) :
    checkedAdd a b = none := if_neg h

theorem parseI64_eq_some {raw : Bytes} {n : Int64} :
    parseI64 raw = some n ↔ DecimalI64 raw n.toInt := by
  unfold parseI64 DecimalI64
  rw [← Decimal.toInt?_eq_some, Option.bind_eq_some_iff]
  constructor
  · rintro ⟨z, hz, hn⟩
    split_ifs at hn with hr
    obtain rfl := Option.some.inj hn
    rw [toInt_ofInt_of_isI64 hr]
    exact ⟨hz, hr⟩
  · rintro ⟨hz, hr⟩
    refine ⟨n.toInt, hz, ?_⟩
    rw [if_pos ⟨hr.1, hr.2⟩, i64_ofInt_toInt]

theorem DecimalI64.unique {raw : Bytes} {y z : ℤ} (hy : DecimalI64 raw y) (hz : DecimalI64 raw z) :
    y = z := by
  have h := Decimal.toInt?_eq_some.2 hy.1
  rw [Decimal.toInt?_eq_some.2 hz.1] at h
  exact (Option.some.inj h).symm

theorem exists_parseI64 {raw : Bytes} {z : ℤ} (h : DecimalI64 raw z) :
    ∃ n, parseI64 raw = some n ∧ n.toInt = z := by
  refine ⟨Int64.ofInt z, parseI64_eq_some.2 ?_, toInt_ofInt_of_isI64 h.2⟩
  rwa [toInt_ofInt_of_isI64 h.2]

theorem decimalI64_ofInt {z : ℤ} (h : IsI64 z) : DecimalI64 (Decimal.ofInt z) z :=
  ⟨Decimal.toInt?_eq_some.1 (Decimal.toInt?_ofInt z), h⟩

theorem parseIntegerArgument_cases (raw : Bytes) :
    (∃ n : Int64, DecimalI64 raw n.toInt ∧ Protocol.parseIntegerArgument raw = .ok n)
      ∨ ((∀ z, ¬ DecimalI64 raw z)
        ∧ Protocol.parseIntegerArgument raw = .error Protocol.notAnInteger) := by
  unfold Protocol.parseIntegerArgument
  rcases hp : parseI64 raw with _ | n
  · refine .inr ⟨fun z hz => ?_, rfl⟩
    obtain ⟨n, hn, -⟩ := exists_parseI64 hz
    rw [hp] at hn
    cases hn
  · exact .inl ⟨n, parseI64_eq_some.1 hp, rfl⟩

/-- A request builds the increment it asks for, or none where it asks for none. -/
theorem CounterFrame.built (float : FloatOps) (key : Key) (f : CounterFrame) :
    (∃ d : Int64, f.Adds d.toInt
        ∧ Protocol.buildCommand float f.name (f.args key) = .ok (.incrBy key d))
      ∨ ((∀ d, ¬ f.Adds d) ∧ ∃ e, Protocol.buildCommand float f.name (f.args key) = .error e) := by
  rcases f with _ | _ | raw | raw
  · exact .inl ⟨1, rfl, Protocol.buildCommand_text (v := .incr) (by simp [Protocol.verbs]) _⟩
  · exact .inl ⟨-1, rfl, Protocol.buildCommand_text (v := .decr) (by simp [Protocol.verbs]) _⟩
  · have hb : Protocol.buildCommand float (text "INCRBY") [key, raw]
        = (Protocol.parseIntegerArgument raw).map (.incrBy key) :=
      Protocol.buildCommand_text (v := .incrBy) (by simp [Protocol.verbs]) _
    rcases parseIntegerArgument_cases raw with ⟨n, hn, hp⟩ | ⟨hn, hp⟩
    · rw [hp] at hb
      exact .inl ⟨n, hn, hb⟩
    · rw [hp] at hb
      exact .inr ⟨hn, _, hb⟩
  · have hb : Protocol.buildCommand float (text "DECRBY") [key, raw]
        = ((Protocol.parseIntegerArgument raw).bind Protocol.checkedNeg).map (.incrBy key) :=
      Protocol.buildCommand_text (v := .decrBy) (by simp [Protocol.verbs]) _
    rcases parseIntegerArgument_cases raw with ⟨n, hn, hp⟩ | ⟨hn, hp⟩
    · rw [hp] at hb
      change _ = (Protocol.checkedNeg n).map (Protocol.Command.incrBy key) at hb
      by_cases hmin : n.toInt = -2 ^ 63
      · rw [Protocol.checkedNeg, if_pos hmin] at hb
        exact .inr ⟨fun d hd => hd.2 ((hd.1.unique hn).trans hmin), _, hb⟩
      · rw [Protocol.checkedNeg, if_neg hmin] at hb
        have hneg : (-n).toInt = -n.toInt := toInt_neg_of_ne_min hmin
        refine .inl ⟨-n, ⟨?_, ?_⟩, hb⟩
        · rwa [hneg, neg_neg]
        · rwa [hneg, neg_neg]
    · rw [hp] at hb
      exact .inr ⟨fun d hd => hn (-d) hd.1, _, hb⟩

section Request

variable {env : Env} {s : KvEngine} {key : Key} {z : ℤ} {ttl : Option ℕ}

theorem readState_eq (env : Env) (s : KvEngine) (key : Key) :
    s.readState env key = (live env.now s.store key, lapsed env s key) := by
  refine Prod.ext ?_ (readState_snd env s key)
  unfold readState live ValueEntry.shown
  rcases s.store.lookup key with _ | e
  · rfl
  · simp only [Option.bind_some]
    split_ifs <;> rfl

theorem live_lapsed (env : Env) (s : KvEngine) (key : Key) :
    live env.now (lapsed env s key).store key = live env.now s.store key := by
  unfold lapsed
  split
  · rename_i e he
    split_ifs with hx
    · have hst : (s.dropExpired key).store = s.store.erase key := rfl
      rw [hst, live_erase, if_pos rfl, live_of_lookup he, shown_of_expired hx]
    · rfl
  · rfl

theorem lapsed_eviction (env : Env) (s : KvEngine) (key : Key) :
    (lapsed env s key).eviction = s.eviction := by
  unfold lapsed
  split
  · split_ifs <;> rfl
  · rfl

theorem StandsAt.ahead {t : ℕ} {store : Store} (h : StandsAt t store key z ttl) {d : ℕ}
    (hd : ttl = some d) : t < d := by
  rcases h with ⟨-, -, rfl⟩ | ⟨data, hl, -⟩
  · cases hd
  · unfold live at hl
    obtain ⟨e, -, he⟩ := Option.bind_eq_some_iff.1 hl
    unfold ValueEntry.shown at he
    split_ifs at he with hx
    simp only [Option.some.injEq, Prod.mk.injEq] at he
    rw [← he.2] at hd
    by_contra hle
    exact hx (isExpired_iff.2 ⟨d, hd, by omega⟩)

/-- What a counted `INCRBY` leaves: the sum in decimal, with the deadline there was. -/
structure CountStored (env : Env) (s s' : KvEngine) (key : Key) (z : ℤ) (ttl : Option ℕ) :
    Prop where
  store : s'.store
    = (lapsed env s key).store.insert key (.newWith (env.access 0) (Decimal.ofInt z) ttl)
  eviction : s'.eviction = s.eviction

theorem incrBy_store_counts (hmax : s.eviction.maxMemory = 0) (delta n : Int64) :
    (∃ c : Int64, IsI64 (n.toInt + delta.toInt) ∧ c.toInt = n.toInt + delta.toInt
        ∧ (incrBy.store env key delta (lapsed env s key) n ttl).1 = .ok c
        ∧ CountStored env s (incrBy.store env key delta (lapsed env s key) n ttl).2 key
          (n.toInt + delta.toInt) ttl)
      ∨ (¬ IsI64 (n.toInt + delta.toInt)
        ∧ incrBy.store env key delta (lapsed env s key) n ttl
          = (.error notAnInteger, lapsed env s key)) := by
  by_cases hr : IsI64 (n.toInt + delta.toInt)
  · obtain ⟨c, hc, hsum⟩ := checkedAdd_eq_some hr
    have hz : (lapsed env s key).eviction.maxMemory = 0 := by rw [lapsed_eviction, hmax]
    have hstore : incrBy.store env key delta (lapsed env s key) n ttl
        = (.ok c, ((lapsed env s key).appendAof
            (.set key (i64ToString c) :: keepTtlRecords env key ttl)).trackInsert key
            (.newWith (env.access 0) (i64ToString c) ttl)) := by
      simp only [incrBy.store, hc, insertKeepTtl, enforceForWrite_of_zero hz]
    rw [hstore, ← hsum]
    exact .inl ⟨c, hsum ▸ hr, rfl, rfl, rfl, lapsed_eviction env s key⟩
  · refine .inr ⟨hr, ?_⟩
    simp only [incrBy.store, checkedAdd_eq_none hr]

/-- `INCRBY` on a counter stores the exact sum, or refuses one outside the range. -/
theorem incrBy_counts (hk : validateKey key = .ok ()) (hmax : s.eviction.maxMemory = 0)
    (h : StandsAt env.now s.store key z ttl) (delta : Int64) :
    (∃ c : Int64, IsI64 (z + delta.toInt) ∧ c.toInt = z + delta.toInt
        ∧ (s.incrBy env key delta).1 = .ok c
        ∧ CountStored env s (s.incrBy env key delta).2 key (z + delta.toInt) ttl)
      ∨ (¬ IsI64 (z + delta.toInt)
        ∧ s.incrBy env key delta = (.error notAnInteger, lapsed env s key)) := by
  rcases h with ⟨hl, rfl, rfl⟩ | ⟨data, hl, hd⟩
  · have hincr : s.incrBy env key delta = incrBy.store env key delta (lapsed env s key) 0 none := by
      simp only [incrBy, hk, readState_eq, hl]
    rw [hincr]
    exact incrBy_store_counts hmax delta 0
  · obtain ⟨n, hn, rfl⟩ := exists_parseI64 hd
    have hincr : s.incrBy env key delta = incrBy.store env key delta (lapsed env s key) n ttl := by
      simp only [incrBy, hk, readState_eq, hl, hn]
    rw [hincr]
    exact incrBy_store_counts hmax delta n

theorem StandsAt.live_countStored (h : StandsAt env.now s.store key z ttl) {s' : KvEngine} {y : ℤ}
    (hs : CountStored env s s' key y ttl) :
    live env.now s'.store key = some (Decimal.ofInt y, ttl) := by
  rw [hs.store, live_insert, if_pos rfl]
  refine shown_of_not_expired ?_
  rw [← Bool.not_eq_true, isExpired_iff]
  rintro ⟨d, hd, hle⟩
  have := h.ahead hd
  omega

theorem CounterFrame.Adds.unique {f : CounterFrame} {d d' : ℤ} (h : f.Adds d) (h' : f.Adds d') :
    d = d' := by
  rcases f with _ | _ | raw | raw
  · exact h.trans h'.symm
  · exact h.trans h'.symm
  · exact DecimalI64.unique h h'
  · have := h.1.unique h'.1
    omega

/-- What a request does: it counts exactly, or it is refused with nothing changed but that an
expired entry is gone. -/
theorem CounterFrame.serve_counts (hk : validateKey key = .ok ())
    (hmax : s.eviction.maxMemory = 0) (h : StandsAt env.now s.store key z ttl)
    (f : CounterFrame) :
    (∃ (d : ℤ) (n : Int64), f.Adds d ∧ IsI64 (z + d) ∧ (f.serve env s key).1 = some n
        ∧ n.toInt = z + d ∧ CountStored env s (f.serve env s key).2 key (z + d) ttl)
      ∨ ((¬ ∃ d, f.Adds d ∧ IsI64 (z + d)) ∧ (f.serve env s key).1 = none
        ∧ ((f.serve env s key).2 = s ∨ (f.serve env s key).2 = lapsed env s key)) := by
  rcases f.built env.float key with ⟨delta, hd, hb⟩ | ⟨hd, err, hb⟩
  · have hserve : f.serve env s key
        = ((s.incrBy env key delta).1.toOption, (s.incrBy env key delta).2) := by
      simp only [serve, hb]
    rw [hserve]
    rcases incrBy_counts hk hmax h delta with ⟨c, hr, hsum, hok, hst⟩ | ⟨hr, herr⟩
    · exact .inl ⟨delta.toInt, c, hd, hr, by rw [hok]; rfl, hsum, hst⟩
    · refine .inr ⟨?_, ?_⟩
      · rintro ⟨d, hd', hr'⟩
        exact hr (hd'.unique hd ▸ hr')
      · rw [herr]
        exact ⟨rfl, .inr rfl⟩
  · have hserve : f.serve env s key = (none, s) := by simp only [serve, hb]
    rw [hserve]
    refine .inr ⟨?_, rfl, .inl rfl⟩
    rintro ⟨d, hd', -⟩
    exact hd d hd'

end Request

section Elsewhere

variable {env : Env} {cmd : Command} {s₀ s t s' : KvEngine} {key : Key}

/-- The entry of `key` is as it was, or it was expired and is gone; and there is no ceiling. -/
def Spared (env : Env) (key : Key) (s s' : KvEngine) : Prop :=
  s'.eviction.maxMemory = 0 ∧ (s'.store.lookup key = s.store.lookup key
    ∨ ∃ e, s.store.lookup key = some e ∧ e.isExpired env.now = true ∧ s'.store.lookup key = none)

theorem Spared.trans (h : Spared env key s t) (h' : Spared env key t s') :
    Spared env key s s' := by
  obtain ⟨-, hsame | ⟨e, he, hx, hgone⟩⟩ := h
  · unfold Spared at *
    rwa [← hsame]
  · obtain ⟨hmax, hsame' | ⟨e', he', -, -⟩⟩ := h'
    · exact ⟨hmax, .inr ⟨e, he, hx, hsame'.trans hgone⟩⟩
    · rw [hgone] at he'
      cases he'

theorem Effect.Does.spares {eff : Effect} (h : eff.Does env cmd s₀ s s')
    (hmax : s.eviction.maxMemory = 0) (hkey : key ∉ cmd.keys) (hflush : cmd ≠ .flushdb)
    (hcfg : ∀ cfg, cmd = .setEvictionConfig cfg → cfg.maxMemory = 0) : Spared env key s s' := by
  have hne : ∀ {k : Key}, k ∈ cmd.keys → key ≠ k := fun hk h => hkey (h ▸ hk)
  obtain ⟨hst, hev, -, -⟩ := h
  unfold Spared
  rw [hev]
  generalize s'.store = store at hst
  rcases hst with _ | ⟨i, k, e, hk, -⟩ | ⟨k, e, d, hk, -⟩ | ⟨k, hk, -⟩ | ⟨k, e, hk, -, -⟩ |
    ⟨k, e, -, he, hx⟩ | ⟨k, hmax', -, -⟩ | hc | ⟨cfg, hc⟩
  · exact ⟨hmax, .inl rfl⟩
  · exact ⟨hmax, .inl (AList.lookup_insert_ne (hne hk))⟩
  · exact ⟨hmax, .inl (AList.lookup_insert_ne (hne hk))⟩
  · exact ⟨hmax, .inl (AList.lookup_erase_ne (hne hk))⟩
  · exact ⟨hmax, .inl (AList.lookup_erase_ne (hne hk))⟩
  · refine ⟨hmax, ?_⟩
    by_cases hk : key = k
    · subst hk
      exact .inr ⟨e, he, hx, AList.lookup_erase _ _⟩
    · exact .inl (AList.lookup_erase_ne hk)
  · exact absurd hmax hmax'
  · exact absurd hc hflush
  · exact ⟨hcfg cfg hc, .inl rfl⟩

theorem Trace.spares {effs : List Effect} (h : Trace env cmd s₀ s effs s')
    (hmax : s.eviction.maxMemory = 0) (hkey : key ∉ cmd.keys) (hflush : cmd ≠ .flushdb)
    (hcfg : ∀ cfg, cmd = .setEvictionConfig cfg → cfg.maxMemory = 0) : Spared env key s s' := by
  induction h with
  | nil s => exact ⟨hmax, .inl rfl⟩
  | cons hd _ ih =>
    have hspare := hd.spares hmax hkey hflush hcfg
    exact hspare.trans (ih hspare.1)

/-- A command leaves the entry of a key it does not name alone, unless it sweeps it away. -/
theorem exec_spares (hmax : s.eviction.maxMemory = 0) (hkey : key ∉ cmd.keys)
    (hflush : cmd ≠ .flushdb)
    (hcfg : ∀ cfg, cmd = .setEvictionConfig cfg → cfg.maxMemory = 0) :
    Spared env key s (exec env s cmd).2 := by
  obtain ⟨effs, htrace, -, -⟩ := exec_traced env s cmd
  exact htrace.spares hmax hkey hflush hcfg

theorem Spared.live (h : Spared env key s s') {T : ℕ} (hT : env.now ≤ T) :
    live T s'.store key = FerrumKv.live T s.store key := by
  obtain ⟨-, hsame | ⟨e, he, hx, hgone⟩⟩ := h
  · unfold FerrumKv.live
    rw [hsame]
  · rw [live_of_lookup_none hgone, live_of_lookup he, shown_of_expired (isExpired_mono hT hx)]

end Elsewhere

section Run

variable {key : Key} {t₀ : ℕ}

/-- The entry of `key`, if it had not expired at `t₀`, holds a decimal `i64`. -/
def Countable (t₀ : ℕ) (key : Key) (store : Store) : Prop :=
  ∀ e, store.lookup key = some e → e.isExpired t₀ = true ∨ ∃ z, DecimalI64 e.data z

theorem StandsAt.countable {store : Store} {z : ℤ} {ttl : Option ℕ}
    (h : StandsAt t₀ store key z ttl) : Countable t₀ key store := by
  intro e he
  by_cases hx : e.isExpired t₀ = true
  · exact .inl hx
  rw [Bool.not_eq_true] at hx
  have hl := (live_of_lookup he).trans (shown_of_not_expired hx)
  rcases h with ⟨hl', -⟩ | ⟨data, hl', hd⟩
  · rw [hl] at hl'
    cases hl'
  · rw [hl, Option.some.injEq, Prod.mk.injEq] at hl'
    exact .inr ⟨z, hl'.1 ▸ hd⟩

theorem Countable.standsAt {store : Store} (h : Countable t₀ key store) {t : ℕ} (ht : t₀ ≤ t) :
    ∃ z ttl, StandsAt t store key z ttl := by
  obtain hl | ⟨e, hl⟩ := Option.eq_none_or_eq_some (store.lookup key)
  · exact ⟨0, none, .inl ⟨live_of_lookup_none hl, rfl, rfl⟩⟩
  by_cases hx : e.isExpired t = true
  · exact ⟨0, none, .inl ⟨(live_of_lookup hl).trans (shown_of_expired hx), rfl, rfl⟩⟩
  rcases h e hl with hx' | ⟨z, hz⟩
  · exact absurd (isExpired_mono ht hx') hx
  · rw [Bool.not_eq_true] at hx
    exact ⟨z, e.expireAt, .inr ⟨e.data, (live_of_lookup hl).trans (shown_of_not_expired hx), hz⟩⟩

theorem Countable.of_lookup {store store' : Store} (h : Countable t₀ key store)
    (hl : store'.lookup key = store.lookup key ∨ store'.lookup key = none) :
    Countable t₀ key store' := by
  intro e he
  rcases hl with hl | hl
  · exact h e (hl ▸ he)
  · rw [hl] at he
    cases he

theorem lapsed_lookup (env : Env) (s : KvEngine) (key : Key) :
    (lapsed env s key).store.lookup key = s.store.lookup key
      ∨ (lapsed env s key).store.lookup key = none := by
  unfold lapsed
  split
  · split_ifs
    · exact .inr (AList.lookup_erase _ _)
    · exact .inl rfl
  · exact .inl rfl

/-- One event is exact, and leaves a counter without a ceiling. -/
theorem CounterEvent.step_exact {s : KvEngine} {e : CounterEvent} (hk : validateKey key = .ok ())
    (hmax : s.eviction.maxMemory = 0) (hc : Countable t₀ key s.store) (he : e.Elsewhere key)
    (ht : t₀ ≤ e.now) :
    e.Exact key s ∧ (e.step key s).eviction.maxMemory = 0
      ∧ Countable t₀ key (e.step key s).store := by
  rcases e with ⟨env, f⟩ | call
  · obtain ⟨z, ttl, hst⟩ := hc.standsAt ht
    rcases f.serve_counts hk hmax hst with ⟨d, n, hd, hr, hn, hsum, hs⟩ | ⟨hno, hn, hs⟩
    · refine ⟨⟨z, ttl, hst, .inl ⟨d, n, hd, hr, hn, hsum, hst.live_countStored hs⟩⟩, ?_, ?_⟩
      · exact (congrArg _ hs.eviction).trans hmax
      · intro e he
        change (f.serve env s key).2.store.lookup key = some e at he
        rw [hs.store, AList.lookup_insert] at he
        obtain rfl := Option.some.inj he
        exact .inr ⟨z + d, decimalI64_ofInt hr⟩
    · refine ⟨⟨z, ttl, hst, .inr ⟨hno, hn, ?_⟩⟩, ?_, ?_⟩
      · rcases hs with hs | hs <;> rw [hs]
        exact live_lapsed env s key
      · change (f.serve env s key).2.eviction.maxMemory = 0
        rcases hs with hs | hs <;> rw [hs]
        · exact hmax
        · rw [lapsed_eviction, hmax]
      · change Countable t₀ key (f.serve env s key).2.store
        rcases hs with hs | hs <;> rw [hs]
        · exact hc
        · exact hc.of_lookup (lapsed_lookup env s key)
  · obtain ⟨hkey, hflush, hcfg⟩ := he
    have hspare : Spared call.env key s (call.step s) := exec_spares hmax hkey hflush hcfg
    refine ⟨fun t ht => hspare.live ht, hspare.1, hc.of_lookup ?_⟩
    rcases hspare.2 with hsame | ⟨-, -, -, hgone⟩
    · exact .inl hsame
    · exact .inr hgone

/-- Without a ceiling, for a legal key that is absent, expired or holds a decimal `i64`, every
counting request in every sequence of them, between any commands that leave the key alone, is
answered with the exact sum and stores it under the deadline there was, or is refused for want of
such a sum and leaves value and deadline as they were. -/
theorem counting_exact (key : Key) (s : KvEngine) (t₀ : ℕ) (hne : key ≠ [])
    (hlen : key.length ≤ keyMaxBytes) (hmax : s.eviction.maxMemory = 0)
    (hstart : ∃ z ttl, StandsAt t₀ s.store key z ttl) (events : List CounterEvent)
    (hevents : ∀ e ∈ events, e.Elsewhere key ∧ t₀ ≤ e.now) (n : ℕ) (e : CounterEvent)
    (hn : events[n]? = some e) : e.Exact key (CounterEvent.run key s (events.take n)) := by
  have hk : validateKey key = .ok () := by
    unfold validateKey
    rw [if_neg (by simpa using hne), if_neg (by omega)]
  have hinv : ∀ n, (CounterEvent.run key s (events.take n)).eviction.maxMemory = 0
      ∧ Countable t₀ key (CounterEvent.run key s (events.take n)).store := by
    obtain ⟨z, ttl, hst⟩ := hstart
    refine Runs.forall_take
      (I := fun a : KvEngine => a.eviction.maxMemory = 0 ∧ Countable t₀ key a.store)
      ⟨hmax, hst.countable⟩ fun n a ha hI => ?_
    obtain ⟨helse, ht⟩ := hevents a (List.mem_of_getElem? ha)
    exact (CounterEvent.step_exact hk hI.1 hI.2 helse ht).2
  obtain ⟨helse, ht⟩ := hevents e (List.mem_of_getElem? hn)
  exact (CounterEvent.step_exact hk (hinv n).1 (hinv n).2 helse ht).1

/-- A counter at the largest `i64`, another client's write, and one increment too many. -/
def fullCounter : List CounterEvent :=
  [.count (.steady 1) (.incrBy (text "+9223372036854775807")),
    .other ⟨.steady 2, .set [120] []⟩, .count (.steady 3) .incr]

theorem counting_exact_full :
    (CounterEvent.count (.steady 3) .incr).Exact [107]
      (CounterEvent.run [107] .new (fullCounter.take 2)) :=
  counting_exact [107] .new 0 (by decide) (by decide) rfl ⟨0, none, .inl ⟨rfl, rfl, rfl⟩⟩
    fullCounter
    (by
      intro e he
      simp only [fullCounter, List.mem_cons, List.not_mem_nil, or_false] at he
      rcases he with rfl | rfl | rfl
      · exact ⟨trivial, by decide⟩
      · exact ⟨⟨by decide, by simp, fun cfg h => by cases h⟩, by decide⟩
      · exact ⟨trivial, by decide⟩)
    2 (.count (.steady 3) .incr) rfl

end Run

end FerrumKv
