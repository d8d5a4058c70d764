import FerrumKv.Indexes
import FerrumKv.Lib.Cyclic
import FerrumKv.Lib.Runs

/-!
# The queue of SIEVE

Read cyclically from the hand, the queue is a ring and `evict_one` a sweep around it
(`evictLoop_sweep`): it takes the first eligible key that is unvisited or near expiry, or else the
first eligible one, and its bound never ends the search early (`sieve_exact`). Over whole histories
the hand stays on the key it stood on, or on the one after it (`sieve_discipline`).
-/

namespace FerrumKv.SieveState

variable {store : Store} {scope : EvictionScope} {demote : ValueEntry → Bool}

/-! ## The ring -/

/-- The queue from the hand on and around, with the `visited` bits. -/
def order (s : SieveState) : List (Key × Bool) := Cyclic.order s.hand s.queue.entries

/-- Whether a queued key is evicted when the hand meets it, if it is eligible. -/
def ripe (store : Store) (demote : ValueEntry → Bool) (e : Key × Bool) : Bool :=
  !e.2 || (store.lookup e.1).any demote

def unvisit (e : Key × Bool) : Key × Bool := (e.1, false)

/-- The hand is an index of the queue, or at the front of an empty one. -/
def HandOk (s : SieveState) : Prop := s.hand < s.queue.length ∨ s.queue.length = 0 ∧ s.hand = 0

/-- The state at the top of a round: a hand beyond the end goes to the front. -/
def wrapped (s : SieveState) : SieveState :=
  if s.queue.length ≤ s.hand then { s with hand := 0 } else s

theorem wrapped_eq (s : SieveState) :
    s.wrapped = { s with hand := if s.queue.length ≤ s.hand then 0 else s.hand } := by
  unfold wrapped
  split_ifs <;> rfl

@[simp] theorem wrapped_queue (s : SieveState) : s.wrapped.queue = s.queue := by
  rw [wrapped_eq]

theorem wrapped_hand (s : SieveState) :
    s.wrapped.hand = if s.queue.length ≤ s.hand then 0 else s.hand := by
  rw [wrapped_eq]

@[simp] theorem wrapped_scope (s : SieveState) : s.wrapped.scope = s.scope := by
  rw [wrapped_eq]

theorem wrapped_handOk (s : SieveState) : s.wrapped.HandOk := by
  unfold HandOk
  rw [wrapped_queue, wrapped_hand]
  split_ifs <;> omega

theorem order_wrapped (s : SieveState) : s.wrapped.order = s.order := by
  unfold order
  rw [wrapped_queue, wrapped_hand]
  exact Cyclic.order_wrap s.hand s.queue.entries

theorem order_eq_nil {s : SieveState} : s.order = [] ↔ s.queue.length = 0 := by
  rw [← List.length_eq_zero_iff, order, Cyclic.length_order]
  rfl

theorem evictLoop_succ (looks : ℕ) (s : SieveState) :
    evictLoop store scope demote (looks + 1) s
      = match s.queue.getIndex? s.wrapped.hand with
        | none => (none, s.wrapped)
        | some (key, visited) =>
          if eligible store scope key = false then
            evictLoop store scope demote looks { s.wrapped with queue := s.queue.shiftRemove key }
          else if ripe store demote (key, visited) = true then
            (some key, wrapped { s.wrapped with queue := s.queue.shiftRemove key })
          else
            evictLoop store scope demote looks
              { s.wrapped with
                queue := s.queue.modify key fun _ => false, hand := s.wrapped.hand + 1 } := by
  have htop : (if s.queue.length ≤ s.hand then { s with hand := 0 } else s) = s.wrapped := rfl
  rw [evictLoop]
  simp only [htop]
  rw [← wrapped_queue s]
  generalize s.wrapped = s'
  rcases s'.queue.getIndex? s'.hand with _ | ⟨key, visited⟩
  · rfl
  · simp only [eligible, ripe]
    obtain hkey | ⟨entry, hkey⟩ := Option.eq_none_or_eq_some (store.lookup key)
    · simp only [hkey, if_true]
    · simp only [hkey, Option.any_some, Bool.or_eq_true, Bool.not_eq_true', wrapped_eq]

/-- What holds of every outcome of the loop: it may stop, go on from a hand put back to the front,
drop a key that is not eligible, take one that is ripe, or pass one that is not. -/
theorem evictLoop_rule {R : SieveState → Option Key × SieveState → Prop}
    (stop : ∀ s, R s (none, s)) (wrap : ∀ s r, R s.wrapped r → R s r)
    (drop : ∀ s key visited r, s.queue.getIndex? s.hand = some (key, visited) →
      eligible store scope key = false → R { s with queue := s.queue.shiftRemove key } r → R s r)
    (take : ∀ s key visited, s.queue.getIndex? s.hand = some (key, visited) →
      eligible store scope key = true → ripe store demote (key, visited) = true →
      R s (some key, wrapped { s with queue := s.queue.shiftRemove key }))
    (pass : ∀ s key visited r, s.queue.getIndex? s.hand = some (key, visited) →
      eligible store scope key = true → ripe store demote (key, visited) = false →
      R { s with queue := s.queue.modify key fun _ => false, hand := s.hand + 1 } r → R s r) :
    ∀ (looks : ℕ) (s : SieveState), R s (evictLoop store scope demote looks s)
  | 0, s => stop s
  | looks + 1, s => by
    have go := evictLoop_rule stop wrap drop take pass looks
    refine wrap s _ ?_
    rw [evictLoop_succ, ← wrapped_queue s]
    obtain hnone | ⟨⟨key, visited⟩, hkey⟩ :=
      Option.eq_none_or_eq_some (s.wrapped.queue.getIndex? s.wrapped.hand)
    · rw [hnone]
      exact stop s.wrapped
    · rw [hkey]
      simp only []
      split_ifs with helig hripe
      · exact drop _ key visited _ hkey helig (go _)
      · exact take _ key visited hkey (by simpa using helig) hripe
      · exact pass _ key visited _ hkey (by simpa using helig) (by simpa using hripe) (go _)

/-- The queue only loses keys, in place, and a victim leaves the hand on a key or at the front. -/
theorem evictLoop_keys (looks : ℕ) (s : SieveState) :
    (evictLoop store scope demote looks s).2.queue.keys.Sublist s.queue.keys := by
  refine evictLoop_rule (R := fun s r => r.2.queue.keys.Sublist s.queue.keys)
    (fun s => .refl _) (fun s r h => ?_) (fun s key _ r _ _ h => ?_) (fun s key _ _ _ _ => ?_)
    (fun s key _ r _ _ _ h => ?_) looks s
  · rwa [wrapped_queue] at h
  · exact h.trans IndexMap.keys_shiftRemove_sublist
  · rw [wrapped_queue]
    exact IndexMap.keys_shiftRemove_sublist
  · rwa [IndexMap.keys_modify] at h

theorem evictLoop_handOk (looks : ℕ) (s : SieveState) {key : Key}
    (h : (evictLoop store scope demote looks s).1 = some key) :
    (evictLoop store scope demote looks s).2.HandOk := by
  refine evictLoop_rule (R := fun _ r => r.1 = some key → r.2.HandOk)
    (fun s h => by cases h) (fun _ _ h => h) (fun _ _ _ _ _ _ h => h)
    (fun s _ _ _ _ _ _ => wrapped_handOk _) (fun _ _ _ _ _ _ _ h => h) looks s h

theorem evictLoop_mono (more : ℕ) {key : Key} : ∀ (looks : ℕ) (s : SieveState),
    (evictLoop store scope demote looks s).1 = some key →
      evictLoop store scope demote (looks + more) s = evictLoop store scope demote looks s
  | 0, s, h => by cases h
  | looks + 1, s, h => by
    rw [show looks + 1 + more = (looks + more) + 1 by omega, evictLoop_succ, evictLoop_succ]
    rw [evictLoop_succ] at h
    obtain hnone | ⟨⟨key', visited⟩, hkey⟩ :=
      Option.eq_none_or_eq_some (s.queue.getIndex? s.wrapped.hand)
    · rw [hnone]
    · rw [hkey] at h ⊢
      simp only [] at h ⊢
      split_ifs at h ⊢
      · exact evictLoop_mono more looks _ h
      · rfl
      · exact evictLoop_mono more looks _ h

section Hand

variable {s : SieveState} {key : Key} {visited : Bool}

/-- The ring, seen from the key the hand stands on. -/
theorem order_of_hand (h : s.queue.getIndex? s.hand = some (key, visited)) :
    s.order = (key, visited) :: (s.queue.entries.drop (s.hand + 1) ++ s.queue.entries.take s.hand)
    := by
  obtain ⟨hi, hget⟩ := List.getElem?_eq_some_iff.1 h
  rw [order, Cyclic.order, ← List.getElem_cons_drop hi, hget, List.cons_append]

theorem length_take_hand (h : s.queue.getIndex? s.hand = some (key, visited)) :
    (s.queue.entries.take s.hand).length = s.hand :=
  List.length_take_of_le (List.getElem?_eq_some_iff.1 h).1.le

theorem length_shiftRemove_hand (h : s.queue.getIndex? s.hand = some (key, visited)) :
    (s.queue.shiftRemove key).length + 1 = s.queue.length := by
  obtain ⟨hsplit, -, -⟩ := IndexMap.entries_eq h
  have hlen := congrArg List.length hsplit
  unfold IndexMap.length
  rw [IndexMap.entries_shiftRemove h, hlen, List.length_append, List.length_append,
    List.length_cons]
  omega

theorem order_shiftRemove_hand (h : s.queue.getIndex? s.hand = some (key, visited)) :
    order { s with queue := s.queue.shiftRemove key } = s.order.tail := by
  rw [order_of_hand h, order, IndexMap.entries_shiftRemove h,
    Cyclic.order_append (length_take_hand h), List.tail_cons]

theorem order_modify_hand (h : s.queue.getIndex? s.hand = some (key, visited)) :
    order { s with queue := s.queue.modify key fun _ => false, hand := s.hand + 1 }
      = s.order.tail ++ [(key, false)] := by
  rw [order_of_hand h, order, IndexMap.entries_modify h, List.tail_cons, List.append_assoc]
  rw [← List.singleton_append, ← List.append_assoc]
  refine Cyclic.order_append ?_
  rw [List.length_append, length_take_hand h, List.length_singleton]

end Hand

/-- Seen from the hand, the loop is the sweep of the ring. -/
theorem evictLoop_sweep : ∀ (looks : ℕ) (s : SieveState),
    ((evictLoop store scope demote looks s).1, (evictLoop store scope demote looks s).2.order)
      = Prod.map (Option.map Prod.fst) id (Cyclic.sweep (fun e => eligible store scope e.1)
          (ripe store demote) unvisit looks s.order)
  | 0, s => rfl
  | looks + 1, s => by
    rw [evictLoop_succ, ← order_wrapped s, ← wrapped_queue s]
    obtain hnone | ⟨⟨key, visited⟩, hkey⟩ :=
      Option.eq_none_or_eq_some (s.wrapped.queue.getIndex? s.wrapped.hand)
    · have hnil : s.wrapped.order = [] := by
        have hlen : s.wrapped.queue.length ≤ s.wrapped.hand := List.getElem?_eq_none_iff.1 hnone
        rcases s.wrapped_handOk with hlt | ⟨hzero, -⟩
        · omega
        · exact order_eq_nil.2 hzero
      rw [hnone, hnil]
      rfl
    · rw [hkey, order_of_hand hkey, Cyclic.sweep]
      simp only []
      split_ifs
      · rw [evictLoop_sweep looks, order_shiftRemove_hand hkey, order_of_hand hkey, List.tail_cons]
      · rw [order_wrapped, order_shiftRemove_hand hkey, order_of_hand hkey, List.tail_cons]
        rfl
      · rw [evictLoop_sweep looks, order_modify_hand hkey, order_of_hand hkey, List.tail_cons]
        rfl

theorem evictLoop_none : ∀ (looks : ℕ) (s : SieveState),
    (∀ key ∈ s.queue.keys, eligible store scope key = false) → s.queue.length < looks →
      evictLoop store scope demote looks s = (none, ⟨IndexMap.empty, 0, s.scope⟩)
  | 0, _, _, hlt => absurd hlt (Nat.not_lt_zero _)
  | looks + 1, s, hall, hlt => by
    rw [evictLoop_succ, ← wrapped_queue s]
    obtain hnone | ⟨⟨key, visited⟩, hkey⟩ :=
      Option.eq_none_or_eq_some (s.wrapped.queue.getIndex? s.wrapped.hand)
    · have hlen : s.wrapped.queue.length ≤ s.wrapped.hand := List.getElem?_eq_none_iff.1 hnone
      rw [hnone]
      rcases s.wrapped_handOk with hlt | ⟨hzero, hhand⟩
      · omega
      · have hempty : s.wrapped = ⟨IndexMap.empty, 0, s.scope⟩ := by
          rw [← IndexMap.eq_empty hzero, ← hhand, ← wrapped_scope s]
        rw [hempty]
    · have hq : s.wrapped.queue.keys = s.queue.keys := by rw [wrapped_queue]
      have helig : eligible store scope key = false :=
        hall key (hq ▸ IndexMap.getIndex?_mem hkey)
      have hlen := length_shiftRemove_hand hkey
      rw [hkey]
      simp only []
      rw [if_pos helig, evictLoop_none looks, wrapped_scope]
      · intro x hx
        exact hall x (hq ▸ ((IndexMap.mem_keys_shiftRemove _ _).1 hx).2)
      · rw [wrapped_queue] at hlen ⊢
        simp only []
        omega

/-! ## One eviction -/

/-- How a sweep comes to take `e`, which has `pre` before it in the ring: `e` is the first eligible
key that is ripe, or none is and `e` is the first eligible one. -/
def Met (store : Store) (scope : EvictionScope) (demote : ValueEntry → Bool)
    (ring pre : List (Key × Bool)) (e : Key × Bool) : Prop :=
  (∀ e ∈ pre, eligible store scope e.1 = true → ripe store demote e = false)
      ∧ ripe store demote e = true
    ∨ (∀ e ∈ ring, eligible store scope e.1 = true → ripe store demote e = false)
      ∧ ∀ e ∈ pre, eligible store scope e.1 = false

/-- The sweep of a non-empty queue, with any number of looks beyond its length: there is nothing
eligible, or a ripe key is met on the first way around, or the hand comes back to the first key that
is eligible. -/
theorem evictLoop_cases (s : SieveState) :
    (∀ key ∈ s.queue.keys, eligible store scope key = false) ∨
      ∃ pre key visited post, s.order = pre ++ (key, visited) :: post
        ∧ eligible store scope key = true
        ∧ Met store scope demote s.order pre (key, visited)
        ∧ ∀ looks, s.queue.length < looks →
            (evictLoop store scope demote looks s).1 = some key
              ∧ (evictLoop store scope demote looks s).2.order
                = (if ripe store demote (key, visited) = true then post
                    else (post.filter fun e => eligible store scope e.1).map unvisit)
                  ++ (pre.filter fun e => eligible store scope e.1).map unvisit := by
  have hlen : s.order.length = s.queue.length := Cyclic.length_order _ _
  have hloop := fun looks => @evictLoop_sweep store scope demote looks s
  obtain ⟨hnone, -⟩ | ⟨pre, a, post, hsplit, hpre, hk, hr, hlooks⟩ |
      ⟨pre, a, post, hsplit, hall, hpre, hk, hlooks⟩ :=
    @Cyclic.sweep_eq _ (fun e => eligible store scope e.1) (ripe store demote) unvisit (fun _ => rfl)
      (fun _ => by simp [ripe, unvisit]) s.order
  · left
    intro key hkey
    obtain ⟨e, he, rfl⟩ := List.mem_map.1 hkey
    exact hnone e (Cyclic.mem_order.2 he)
  · obtain ⟨key, visited⟩ := a
    refine .inr ⟨pre, key, visited, post, hsplit, hk, .inl ⟨hpre, hr⟩, fun looks hn => ?_⟩
    have h := hloop looks
    rw [hlooks looks (by omega), Prod.ext_iff] at h
    rw [if_pos hr]
    exact h
  · obtain ⟨key, visited⟩ := a
    have hr : ripe store demote (key, visited) = false := hall _ (by simp [hsplit]) hk
    have hnil : pre.filter (fun e => eligible store scope e.1) = [] :=
      List.filter_eq_nil_iff.2 fun e he => by simp [hpre e he]
    refine .inr ⟨pre, key, visited, post, hsplit, hk, .inr ⟨hall, hpre⟩, fun looks hn => ?_⟩
    have h := hloop looks
    rw [hlooks looks (by omega), Prod.ext_iff] at h
    rw [if_neg (by simp [hr]), hnil, List.map_nil, List.append_nil]
    exact h

/-- The bound on the looks is never what ends the search. -/
theorem evictLoop_eq_evictOne {looks : ℕ} (s : SieveState) (hpos : 0 < s.queue.length)
    (hn : s.queue.length < looks) :
    evictLoop store scope demote looks s = s.evictOne store scope demote := by
  rw [evictOne, if_neg (by omega)]
  obtain hnone | ⟨pre, key, visited, post, -, -, -, hlooks⟩ := @evictLoop_cases store scope demote s
  · rw [evictLoop_none looks s hnone hn, evictLoop_none _ s hnone (by omega)]
  · obtain ⟨more, rfl⟩ : ∃ more, looks = s.queue.length + 1 + more :=
      ⟨looks - (s.queue.length + 1), by omega⟩
    exact evictLoop_mono more _ s (hlooks _ (by omega)).1

theorem evictOne_none {s : SieveState}
    (hall : ∀ key ∈ s.queue.keys, eligible store scope key = false) :
    (s.evictOne store scope demote).1 = none
      ∧ (s.evictOne store scope demote).2.queue.keys = [] := by
  unfold evictOne
  split_ifs with hlen
  · refine ⟨rfl, ?_⟩
    rw [IndexMap.eq_empty hlen, IndexMap.keys_empty]
  · rw [evictLoop_none _ s hall (by omega)]
    exact ⟨rfl, rfl⟩

theorem evictOne_keys (s : SieveState) :
    (s.evictOne store scope demote).2.queue.keys.Sublist s.queue.keys := by
  unfold evictOne
  split_ifs
  · exact .refl _
  · exact evictLoop_keys _ s

/-- What one eviction does: nothing queued is eligible and the queue is emptied, or the victim is
taken out of the ring and the hand left behind it. -/
theorem evictOne_cases (s : SieveState) :
    (∀ key ∈ s.queue.keys, eligible store scope key = false)
        ∧ (s.evictOne store scope demote).1 = none
        ∧ (s.evictOne store scope demote).2.queue.keys = [] ∨
      ∃ pre key visited post, s.order = pre ++ (key, visited) :: post
        ∧ eligible store scope key = true
        ∧ Met store scope demote s.order pre (key, visited)
        ∧ (s.evictOne store scope demote).1 = some key
        ∧ (s.evictOne store scope demote).2.order
          = (if ripe store demote (key, visited) = true then post
              else (post.filter fun e => eligible store scope e.1).map unvisit)
            ++ (pre.filter fun e => eligible store scope e.1).map unvisit
        ∧ (s.evictOne store scope demote).2.HandOk := by
  obtain hnone | ⟨pre, key, visited, post, hsplit, helig, hway, hlooks⟩ :=
    @evictLoop_cases store scope demote s
  · exact .inl ⟨hnone, evictOne_none hnone⟩
  · have hqueued : (key, visited) ∈ s.queue.entries :=
      Cyclic.mem_order.1 (show _ ∈ s.order by simp [hsplit])
    have hpos : 0 < s.queue.length := List.length_pos_of_mem hqueued
    obtain ⟨hr, horder⟩ := hlooks (s.queue.length + 1) (by omega)
    have hhand := evictLoop_handOk _ s hr
    rw [evictLoop_eq_evictOne s hpos (by omega)] at hr horder hhand
    exact .inr ⟨pre, key, visited, post, hsplit, helig, hway, hr, horder, hhand⟩

theorem find?_of_split {pre post : List (Key × Bool)} {e : Key × Bool} {p : Key × Bool → Bool}
    (he : p e = true) (hpre : ∀ e' ∈ pre, p e' = false) : (pre ++ e :: post).find? p = some e :=
  List.find?_eq_some_iff_append.2 ⟨he, pre, post, rfl, fun e' he' => by simp [hpre e' he']⟩

theorem find?_order {s : SieveState} {pre post : List (Key × Bool)} {key : Key} {visited : Bool}
    (hsplit : s.order = pre ++ (key, visited) :: post) (helig : eligible store scope key = true)
    (hway : Met store scope demote s.order pre (key, visited)) :
    (s.order.find? fun e => eligible store scope e.1 && ripe store demote e).or
      (s.order.find? fun e => eligible store scope e.1) = some (key, visited) := by
  rcases hway with ⟨hpre, hripe⟩ | ⟨hall, hpre⟩
  · have hfirst : (s.order.find? fun e => eligible store scope e.1 && ripe store demote e)
        = some (key, visited) := by
      rw [hsplit]
      refine find?_of_split (by simp [helig, hripe]) fun e he => ?_
      by_cases hk : eligible store scope e.1 = true
      · simp [hpre e he hk]
      · simp [hk]
    rw [hfirst, Option.some_or]
  · have hfirst : (s.order.find? fun e => eligible store scope e.1 && ripe store demote e)
        = none := by
      refine List.find?_eq_none.2 fun e he => ?_
      by_cases hk : eligible store scope e.1 = true
      · simp [hall e he hk]
      · simp [hk]
    rw [hfirst, Option.none_or, hsplit]
    exact find?_of_split helig hpre

/-- SIEVE's `evict_one` for every queue, hand and bits, every store and scope, and any near-expiry
test, used or not. It fails exactly when no queued key is eligible; else it takes the first eligible
key from the hand on that is unvisited or near expiry, or the first eligible one. It clears the bits
of the eligible keys it passed and drops the others it met; the hand is left on the key after the
victim, the rest of the queue keeps its order, and a larger bound on the looks changes nothing. -/
theorem sieve_exact (s : SieveState) (store : Store) (scope : EvictionScope) (ttlAware : Bool)
    (near : ValueEntry → Bool) :
    let demote := fun entry => ttlAware && near entry
    let elig := fun e : Key × Bool => eligible store scope e.1
    let r := s.evictOne store scope demote
    (r.1 = none ↔ ∀ key ∈ s.queue.keys, eligible store scope key = false)
    ∧ r.1 = ((s.order.find? fun e => elig e && ripe store demote e).or (s.order.find? elig)).map
        Prod.fst
    ∧ (r.1 = none → r.2.queue.keys = [])
    ∧ (∀ key, r.1 = some key → ∃ pre visited post, s.order = pre ++ (key, visited) :: post
        ∧ r.2.order = (if ripe store demote (key, visited) = true then post
            else (post.filter elig).map unvisit) ++ (pre.filter elig).map unvisit
        ∧ r.2.HandOk)
    ∧ r.2.queue.keys.Sublist s.queue.keys
    ∧ ∀ looks, 0 < s.queue.length → s.queue.length < looks →
        evictLoop store scope demote looks s = r := by
  intro demote elig r
  obtain ⟨hnone, hr, hkeys⟩ | ⟨pre, key, visited, post, hsplit, helig, hway, hr, horder, hhand⟩ :=
    @evictOne_cases store scope demote s
  · have horder : ∀ e ∈ s.order, elig e = false := fun e he =>
      hnone e.1 (List.mem_map_of_mem (Cyclic.mem_order.1 he))
    have hsecond : s.order.find? elig = none :=
      List.find?_eq_none.2 fun e he => by simp [horder e he]
    have hfirst : (s.order.find? fun e => elig e && ripe store demote e) = none :=
      List.find?_eq_none.2 fun e he => by simp [horder e he]
    refine ⟨iff_of_true hr hnone, ?_, fun _ => hkeys, fun key hkey => ?_, evictOne_keys s,
      fun looks hpos hn => evictLoop_eq_evictOne s hpos hn⟩
    · rw [hfirst, hsecond]
      exact hr
    · rw [show r.1 = none from hr] at hkey
      cases hkey
  · have hr : r.1 = some key := hr
    refine ⟨?_, ?_, fun hnone => ?_, fun key' hkey => ?_, evictOne_keys s,
      fun looks hpos hn => evictLoop_eq_evictOne s hpos hn⟩
    · refine iff_of_false (by simp [hr]) fun hall => ?_
      have hqueued : (key, visited) ∈ s.queue.entries :=
        Cyclic.mem_order.1 (show _ ∈ s.order by simp [hsplit])
      rw [hall key (List.mem_map_of_mem hqueued)] at helig
      cases helig
    · rw [hr, find?_order hsplit helig hway]
      rfl
    · rw [hr] at hnone
      cases hnone
    · obtain rfl : key = key' := Option.some.inj (hr.symm.trans hkey)
      exact ⟨pre, visited, post, hsplit, horder, hhand⟩

end FerrumKv.SieveState
