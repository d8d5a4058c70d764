import Mathlib.Tactic

/-!
# Framing a stream that arrives in pieces

A parser looks at a buffer and asks for more input, takes an item off its front, or stops. A reader
appends every piece to what is left, takes off and handles as many items as it can, and gives up on
a rest that is too long. Where a verdict holds for every longer buffer (`Stable`), what the loop
makes of a stream does not depend on where the pieces are cut (`feedAll_eq`). Two handlers that keep
a relation between their states end in related states (`feedAll_related`).
-/

namespace Framing

variable {α β ε σ : Type}

inductive Verdict (β ε : Type)
  | more
  | item (x : β) (consumed : ℕ)
  | stop (e : ε)

/-- A verdict on a buffer is the verdict on every longer one; an item takes at least one element, and
those it takes decide it. -/
structure Stable (parse : List α → Verdict β ε) : Prop where
  append : ∀ b c, parse b ≠ .more → parse (b ++ c) = parse b
  pos : ∀ b x n, parse b = .item x n → 0 < n
  exact : ∀ b x n, parse b = .item x n → n ≤ b.length ∧ parse (b.take n) = .item x n
  nil : parse [] = .more

/-- How items, stops and a rest that is too long are handled. An item is handled with or without going
on after it. -/
structure Handler (β ε σ : Type) where
  item : σ → β → σ × Bool
  stop : σ → ε → σ
  overflow : σ → σ

section Loop

variable (parse : List α → Verdict β ε) (h : Handler β ε σ)

/-- Takes items off the buffer for at most `fuel` rounds. The reader goes on with the rest, or is
closed. -/
def drain : ℕ → List α → σ → Option (σ × Option (List α))
  | 0, _, _ => none
  | fuel + 1, buf, s =>
    match parse buf with
    | .more => some (s, some buf)
    | .item x n =>
      match h.item s x with
      | (s, true) => drain fuel (buf.drop n) s
      | (s, false) => some (s, none)
    | .stop e => some (h.stop s e, none)

def feed (limit : ℕ) (st : σ × Option (List α)) (piece : List α) : Option (σ × Option (List α)) :=
  match st with
  | (s, none) => some (s, none)
  | (s, some buf) =>
    match drain parse h ((buf ++ piece).length + 1) (buf ++ piece) s with
    | none => none
    | some (s, none) => some (s, none)
    | some (s, some rest) =>
      if limit < rest.length then some (h.overflow s, none) else some (s, some rest)

def feedAll (limit : ℕ) : List (List α) → σ × Option (List α) → Option (σ × Option (List α))
  | [], st => some st
  | piece :: pieces, st => (feed parse h limit st piece).bind (feedAll limit pieces)

/-- What draining a buffer comes to. -/
inductive Drains : List α → σ → σ × Option (List α) → Prop
  | more {b : List α} {s : σ} : parse b = .more → Drains b s (s, some b)
  | item {b : List α} {s s' : σ} {x : β} {n : ℕ} {r : σ × Option (List α)} :
    parse b = .item x n → h.item s x = (s', true) → Drains (b.drop n) s' r → Drains b s r
  | leave {b : List α} {s s' : σ} {x : β} {n : ℕ} :
    parse b = .item x n → h.item s x = (s', false) → Drains b s (s', none)
  | stop {b : List α} {s : σ} {e : ε} : parse b = .stop e → Drains b s (h.stop s e, none)

/-- Every stretch of the stream that is handled as a unit has at most `limit` elements: an item, the
elements up to where a stop is certain, or an unfinished rest. -/
inductive Fits (limit : ℕ) : List α → σ → Prop
  | more {b : List α} {s : σ} : parse b = .more → b.length ≤ limit → Fits limit b s
  | item {b : List α} {s s' : σ} {x : β} {n : ℕ} : parse b = .item x n → n ≤ limit →
    h.item s x = (s', true) → Fits limit (b.drop n) s' → Fits limit b s
  | leave {b : List α} {s s' : σ} {x : β} {n : ℕ} : parse b = .item x n → n ≤ limit →
    h.item s x = (s', false) → Fits limit b s
  | stop {b : List α} {s : σ} {e : ε} {m : ℕ} : parse b = .stop e → m ≤ limit →
    parse (b.take m) = .stop e → Fits limit b s

end Loop

section Theorems

variable {parse : List α → Verdict β ε} {h : Handler β ε σ}

/-- With fuel for the length of the buffer, the loop ends. -/
theorem drain_total (hs : Stable parse) : ∀ (fuel : ℕ) (b : List α) (s : σ), b.length < fuel →
    ∃ r, drain parse h fuel b s = some r ∧ Drains parse h b s r
  | fuel + 1, b, s, hlt => by
    unfold drain
    rcases hp : parse b with _ | ⟨x, n⟩ | e
    · exact ⟨_, rfl, .more hp⟩
    · have hn := hs.pos b x n hp
      have hle := (hs.exact b x n hp).1
      rcases hx : h.item s x with ⟨s', _ | _⟩ <;> simp only [hx]
      · exact ⟨_, rfl, .leave hp hx⟩
      · have hlen : (b.drop n).length < fuel := by
          rw [List.length_drop]
          omega
        obtain ⟨r, hr, hd⟩ := drain_total hs fuel (b.drop n) s' hlen
        exact ⟨r, hr, .item hp hx hd⟩
    · exact ⟨_, rfl, .stop hp⟩

theorem Drains.unique {b : List α} {s : σ} {r r' : σ × Option (List α)} (hr : Drains parse h b s r)
    (hr' : Drains parse h b s r') : r = r' := by
  induction hr with
  | more hp =>
    rcases hr' with _ | ⟨hp', _, _⟩ | ⟨hp', _⟩ | hp'
    · rfl
    all_goals rw [hp] at hp'; cases hp'
  | item hp hx _ ih =>
    rcases hr' with hp' | ⟨hp', hx', hd'⟩ | ⟨hp', hx'⟩ | hp' <;> rw [hp] at hp' <;> cases hp'
    · rw [hx] at hx'
      cases hx'
      exact ih hd'
    · rw [hx] at hx'
      cases hx'
  | leave hp hx =>
    rcases hr' with hp' | ⟨hp', hx', hd'⟩ | ⟨hp', hx'⟩ | hp' <;> rw [hp] at hp' <;> cases hp'
    · rw [hx] at hx'
      cases hx'
    · rw [hx] at hx'
      cases hx'
      rfl
  | stop hp =>
    rcases hr' with hp' | ⟨hp', _, _⟩ | ⟨hp', _⟩ | hp' <;> rw [hp] at hp' <;> cases hp'
    rfl

theorem drop_append_of_item (hs : Stable parse) {b c : List α} {x : β} {n : ℕ}
    (hp : parse b = .item x n) : parse (b ++ c) = .item x n ∧ (b ++ c).drop n = b.drop n ++ c := by
  refine ⟨(hs.append b c (by rw [hp]; nofun)).trans hp, ?_⟩
  rw [List.drop_append_of_le_length (hs.exact b x n hp).1]

theorem Drains.rest_more {b rest : List α} {s : σ} {r : σ × Option (List α)}
    (hd : Drains parse h b s r) (hr : r.2 = some rest) : parse rest = .more := by
  induction hd with
  | more hp =>
    cases hr
    exact hp
  | item _ _ _ ih => exact ih hr
  | leave _ _ => cases hr
  | stop _ => cases hr

/-- Draining a longer stream is draining its beginning and then the rest of that with what follows. -/
theorem Drains.append (hs : Stable parse) {b c rest : List α} {s : σ} {r r' : σ × Option (List α)}
    (hd : Drains parse h b s r) (hr : r.2 = some rest) (hd' : Drains parse h (rest ++ c) r.1 r') :
    Drains parse h (b ++ c) s r' := by
  induction hd with
  | more hp =>
    cases hr
    exact hd'
  | item hp hx _ ih =>
    obtain ⟨hp', hdrop⟩ := drop_append_of_item hs (c := c) hp
    refine .item hp' hx ?_
    rw [hdrop]
    exact ih hr hd'
  | leave _ _ => cases hr
  | stop _ => cases hr

theorem Drains.append_closed (hs : Stable parse) {b c : List α} {s : σ} {r : σ × Option (List α)}
    (hd : Drains parse h b s r) (hr : r.2 = none) : Drains parse h (b ++ c) s r := by
  induction hd with
  | more _ => cases hr
  | item hp hx _ ih =>
    obtain ⟨hp', hdrop⟩ := drop_append_of_item hs (c := c) hp
    refine .item hp' hx ?_
    rw [hdrop]
    exact ih hr
  | leave hp hx => exact .leave (drop_append_of_item hs hp).1 hx
  | stop hp => exact .stop ((hs.append _ c (by rw [hp]; nofun)).trans hp)

theorem length_lt_of_more (hs : Stable parse) {b c : List α} {m : ℕ} (hb : parse b = .more)
    (hm : parse ((b ++ c).take m) ≠ .more) : b.length < m := by
  by_contra hle
  have htake : (b ++ c).take m = b.take m := List.take_append_of_le_length (by omega)
  rw [htake] at hm
  have happ := hs.append (b.take m) (b.drop m) hm
  rw [List.take_append_drop, hb] at happ
  exact hm happ.symm

theorem Fits.length_le (hs : Stable parse) {limit : ℕ} {b c : List α} {s : σ}
    (hb : parse b = .more) (hf : Fits parse h limit (b ++ c) s) : b.length ≤ limit := by
  rcases hf with ⟨_, hle⟩ | ⟨hp, hle, _, _⟩ | ⟨hp, hle, _⟩ | ⟨_, hle, hp⟩
  · rw [List.length_append] at hle
    omega
  · have := length_lt_of_more hs hb (by rw [(hs.exact _ _ _ hp).2]; nofun)
    omega
  · have := length_lt_of_more hs hb (by rw [(hs.exact _ _ _ hp).2]; nofun)
    omega
  · have := length_lt_of_more hs hb (by rw [hp]; nofun)
    omega

theorem Fits.rest (hs : Stable parse) {limit : ℕ} {b c rest : List α} {s : σ}
    {r : σ × Option (List α)} (hd : Drains parse h b s r) (hr : r.2 = some rest)
    (hf : Fits parse h limit (b ++ c) s) : Fits parse h limit (rest ++ c) r.1 := by
  induction hd with
  | more _ =>
    cases hr
    exact hf
  | item hp hx _ ih =>
    obtain ⟨hp', hdrop⟩ := drop_append_of_item hs (c := c) hp
    refine ih hr ?_
    rw [← hdrop]
    rcases hf with ⟨hq, _⟩ | ⟨hq, _, hx', hf⟩ | ⟨hq, _, hx'⟩ | ⟨hq, _, _⟩ <;> rw [hp'] at hq <;>
      cases hq
    · rw [hx] at hx'
      cases hx'
      exact hf
    · rw [hx] at hx'
      cases hx'
  | leave _ _ => cases hr
  | stop _ => cases hr

/-- The pieces of a stream are handled as the whole stream is, and the rest is never too long. -/
theorem feedAll_drains (hs : Stable parse) (limit : ℕ) : ∀ (pieces : List (List α))
    (pending : List α) (s : σ), parse pending = .more →
      Fits parse h limit (pending ++ pieces.flatten) s →
      ∃ r, feedAll parse h limit pieces (s, some pending) = some r
        ∧ Drains parse h (pending ++ pieces.flatten) s r
  | [], pending, s, hp, _ => by
    refine ⟨_, rfl, ?_⟩
    rw [List.flatten_nil, List.append_nil]
    exact .more hp
  | piece :: pieces, pending, s, hp, hf => by
    rw [List.flatten_cons, ← List.append_assoc] at hf ⊢
    obtain ⟨⟨s', rest⟩, hdrain, hd⟩ :=
      drain_total (h := h) hs ((pending ++ piece).length + 1) (pending ++ piece) s (Nat.lt_succ_self _)
    unfold feedAll feed
    simp only [hdrain]
    rcases rest with _ | rest
    · refine ⟨(s', none), feedAll_closed pieces s', hd.append_closed hs rfl⟩
    · have hmore := hd.rest_more rfl
      have hfits := hf.rest hs hd rfl
      have hle := hfits.length_le hs hmore
      simp only [if_neg (Nat.not_lt.2 hle), Option.bind_some]
      obtain ⟨r, hr, hdr⟩ := feedAll_drains hs limit pieces rest s' hmore hfits
      exact ⟨r, hr, hd.append hs rfl hdr⟩
where
  feedAll_closed : ∀ (pieces : List (List α)) (s : σ),
      feedAll parse h limit pieces (s, none) = some (s, none)
    | [], _ => rfl
    | _ :: pieces, s => feedAll_closed pieces s

/-- However a stream is cut into pieces, the reader ends as the loop over the whole stream does. -/
theorem feedAll_eq (hs : Stable parse) {limit : ℕ} {pieces : List (List α)} {s : σ}
    (hf : Fits parse h limit pieces.flatten s) :
    ∃ r, feedAll parse h limit pieces (s, some []) = some r
      ∧ drain parse h (pieces.flatten.length + 1) pieces.flatten s = some r
      ∧ Drains parse h pieces.flatten s r := by
  obtain ⟨r, hr, hd⟩ := feedAll_drains hs limit pieces [] s hs.nil hf
  obtain ⟨r', hr', hd'⟩ :=
    drain_total (h := h) hs (pieces.flatten.length + 1) pieces.flatten s (Nat.lt_succ_self _)
  rw [List.nil_append] at hd
  obtain rfl := hd.unique hd'
  exact ⟨r, hr, hr', hd⟩

end Theorems

section Simulation

variable {τ : Type}

/-- Two handlers that go on after the same items. While they do, their states are related by `R`, and
once they are closed by `Q`. -/
structure Related (h : Handler β ε σ) (k : Handler β ε τ) (R Q : σ → τ → Prop) : Prop where
  go : ∀ s t x, R s t → (h.item s x).2 = (k.item t x).2
  item : ∀ s t x, R s t → (h.item s x).2 = true → R (h.item s x).1 (k.item t x).1
  leave : ∀ s t x, R s t → (h.item s x).2 = false → Q (h.item s x).1 (k.item t x).1
  stop : ∀ s t e, R s t → Q (h.stop s e) (k.stop t e)
  overflow : ∀ s t, R s t → Q (h.overflow s) (k.overflow t)

/-- The relation that fits what is left to read. -/
def Holds (R Q : σ → τ → Prop) (s : σ) (t : τ) : Option (List α) → Prop
  | some _ => R s t
  | none => Q s t

variable {parse : List α → Verdict β ε} {h : Handler β ε σ} {k : Handler β ε τ}
  {R Q : σ → τ → Prop}

theorem drain_related (hs : Stable parse) (hr : Related h k R Q) : ∀ (fuel : ℕ) (b : List α)
    (s : σ) (t : τ), b.length < fuel → R s t → ∃ s' t' rest, drain parse h fuel b s = some (s', rest)
      ∧ drain parse k fuel b t = some (t', rest) ∧ Holds R Q s' t' rest
  | fuel + 1, b, s, t, hlt, hst => by
    unfold drain
    rcases hp : parse b with _ | ⟨x, n⟩ | e
    · exact ⟨s, t, some b, rfl, rfl, hst⟩
    · have hn := hs.pos b x n hp
      have hle := (hs.exact b x n hp).1
      have hgo := hr.go s t x hst
      have hitem := hr.item s t x hst
      have hleave := hr.leave s t x hst
      rcases hx : h.item s x with ⟨s', go⟩
      rcases hy : k.item t x with ⟨t', go'⟩
      rw [hx, hy] at hitem hleave hgo
      obtain rfl : go = go' := hgo
      rcases go with _ | _ <;> simp only [hx, hy]
      · exact ⟨s', t', none, rfl, rfl, hleave rfl⟩
      · have hlen : (b.drop n).length < fuel := by
          rw [List.length_drop]
          omega
        exact drain_related hs hr fuel (b.drop n) s' t' hlen (hitem rfl)
    · exact ⟨_, _, none, rfl, rfl, hr.stop s t e hst⟩

theorem feed_related (hs : Stable parse) (hr : Related h k R Q) (limit : ℕ) {s : σ} {t : τ}
    {pending : Option (List α)} (piece : List α) (hst : Holds R Q s t pending) :
    ∃ s' t' rest, feed parse h limit (s, pending) piece = some (s', rest)
      ∧ feed parse k limit (t, pending) piece = some (t', rest) ∧ Holds R Q s' t' rest := by
  rcases pending with _ | buf
  · exact ⟨s, t, none, rfl, rfl, hst⟩
  obtain ⟨s', t', rest, hd, hd', hst'⟩ :=
    drain_related hs hr ((buf ++ piece).length + 1) (buf ++ piece) s t (Nat.lt_succ_self _) hst
  unfold feed
  simp only [hd, hd']
  rcases rest with _ | rest
  · exact ⟨s', t', none, rfl, rfl, hst'⟩
  · by_cases hl : limit < rest.length
    · simp only [if_pos hl]
      exact ⟨_, _, none, rfl, rfl, hr.overflow s' t' hst'⟩
    · simp only [if_neg hl]
      exact ⟨s', t', some rest, rfl, rfl, hst'⟩

/-- Two readers of the same pieces end alike, in related states. -/
theorem feedAll_related (hs : Stable parse) (hr : Related h k R Q) (limit : ℕ) :
    ∀ (pieces : List (List α)) (pending : Option (List α)) (s : σ) (t : τ),
      Holds R Q s t pending →
      ∃ s' t' rest, feedAll parse h limit pieces (s, pending) = some (s', rest)
        ∧ feedAll parse k limit pieces (t, pending) = some (t', rest) ∧ Holds R Q s' t' rest
  | [], pending, s, t, hst => ⟨s, t, pending, rfl, rfl, hst⟩
  | piece :: pieces, pending, s, t, hst => by
    obtain ⟨s', t', rest, hf, hf', hst'⟩ := feed_related hs hr limit piece hst
    unfold feedAll
    rw [hf, hf', Option.bind_some, Option.bind_some]
    exact feedAll_related hs hr limit pieces rest s' t' hst'

end Simulation

end Framing
