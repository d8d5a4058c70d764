import FerrumKv.Slowlog
import FerrumKv.Lib.Runs
import FerrumKv.Proofs.Session

/-!
# Order and length of the slow log

A push enters the ring behind all that are in it (`pushBack_eq`). So one step keeps the order, the
cap and the oldest first exactly if the push is in its turn (`kept_iff`), and so does a whole run
(`slowlog_kept_iff`). Without other threads in between, the steps of a call are what the server does
as one (`run_push`).
-/

namespace FerrumKv.SlowlogSystem

section PushBack

variable {ring : List SlowLogEntry} {entry : SlowLogEntry} {maxLen : ℕ}

theorem pushBack_eq (ring : List SlowLogEntry) (entry : SlowLogEntry) (maxLen : ℕ) :
    pushBack ring entry maxLen = ring.drop (ring.length + 1 - max maxLen 1) ++ [entry] := by
  unfold pushBack
  rw [List.length_append, List.length_singleton, List.drop_append_of_le_length]
  omega

theorem length_pushBack (ring : List SlowLogEntry) (entry : SlowLogEntry) (maxLen : ℕ) :
    (pushBack ring entry maxLen).length = min (ring.length + 1) (max maxLen 1) := by
  rw [pushBack_eq, List.length_append, List.length_singleton, List.length_drop]
  omega

theorem take_append_pushBack (ring : List SlowLogEntry) (entry : SlowLogEntry) (maxLen : ℕ) :
    ring.take (ring.length + 1 - max maxLen 1) ++ pushBack ring entry maxLen = ring ++ [entry] := by
  rw [pushBack_eq, ← List.append_assoc, List.take_append_drop]

theorem ordered_append_iff (h : (ring.map (·.id)).Pairwise (· < ·)) :
    ((ring ++ [entry]).map (·.id)).Pairwise (· < ·) ↔ ∀ x ∈ ring, x.id < entry.id := by
  rw [List.map_append, List.pairwise_append]
  simp [h]

/-- What the critical section leaves is in order, and what it drops is older than that, exactly if
the entry is newer than all. -/
theorem ordered_pushBack_iff (h : (ring.map (·.id)).Pairwise (· < ·)) :
    (((pushBack ring entry maxLen).map (·.id)).Pairwise (· < ·)
        ∧ ∀ x ∈ ring.take (ring.length + 1 - max maxLen 1),
          ∀ y ∈ pushBack ring entry maxLen, x.id < y.id)
      ↔ ∀ x ∈ ring, x.id < entry.id := by
  rw [← ordered_append_iff h, ← take_append_pushBack ring entry maxLen, List.map_append,
    List.pairwise_append]
  have htake : ((ring.take (ring.length + 1 - max maxLen 1)).map (·.id)).Pairwise (· < ·) :=
    h.sublist ((List.take_sublist _ _).map _)
  simp only [List.forall_mem_map]
  exact ⟨fun hp => ⟨htake, hp⟩, fun hp => hp.2⟩

end PushBack

section Steps

variable {calls : ℕ → Reading × List Bytes} {s : SlowlogSystem} {e : SlowlogEvent}

theorem Ordered.newestFirst (h : s.Ordered) (count : Option ℕ) :
    ((s.server.slowlogGet count).map (·.id)).Pairwise (· > ·) := by
  have hreverse : (s.server.slowlog.reverse.map (·.id)).Pairwise (· > ·) := by
    rw [List.map_reverse, List.pairwise_reverse]
    exact h
  unfold Server.slowlogGet
  split
  · exact hreverse.sublist ((List.take_sublist _ _).map _)
  · exact hreverse

theorem step_cases (calls : ℕ → Reading × List Bytes) (s : SlowlogSystem) (e : SlowlogEvent) :
    (∃ call entry maxLen, e = .insert call ∧ s.phase call = .measured entry maxLen
        ∧ s.pushed e = [entry] ∧ (s.step calls e).server.slowlogMaxLen = s.server.slowlogMaxLen
        ∧ (s.step calls e).server.slowlog = pushBack s.server.slowlog entry maxLen)
      ∨ (s.InTurn e ∧ s.pushed e = [] ∧ (s.step calls e).server.slowlog = [])
      ∨ (s.InTurn e ∧ s.pushed e = [] ∧ (s.step calls e).server.slowlog = s.server.slowlog) := by
  have hother : (∀ call, e ≠ .insert call) → s.InTurn e := fun hne call _ _ he =>
    absurd he (hne call)
  cases e with
  | check call =>
    refine .inr (.inr ⟨hother (by simp), rfl, ?_⟩)
    simp only [step]
    split <;> rfl
  | number call =>
    refine .inr (.inr ⟨hother (by simp), rfl, ?_⟩)
    simp only [step]
    split <;> rfl
  | measure call =>
    refine .inr (.inr ⟨hother (by simp), rfl, ?_⟩)
    simp only [step]
    split <;> rfl
  | insert call =>
    rcases hp : s.phase call with _ | _ | _ | ⟨entry, maxLen⟩ | _
    case measured =>
      refine .inl ⟨call, entry, maxLen, rfl, hp, ?_, ?_, ?_⟩
      · simp [pushed, hp]
      · simp [step, hp, enter]
      · simp [step, hp, enter]
    all_goals
      refine .inr (.inr ⟨?_, ?_, ?_⟩)
      · intro c entry maxLen hc hm
        cases hc
        rw [hp] at hm
        cases hm
      · simp [pushed, hp]
      · simp [step, hp]
  | reset => exact .inr (.inl ⟨hother (by simp), rfl, rfl⟩)
  | setMaxLen v => exact .inr (.inr ⟨hother (by simp), rfl, rfl⟩)
  | setThreshold v => exact .inr (.inr ⟨hother (by simp), rfl, rfl⟩)

theorem Kept.of_front {front : List SlowLogEntry} (hordered : (s.step calls e).Ordered)
    (hbounded : s.pushed e ≠ [] →
      (s.step calls e).server.slowlog.length ≤ max 1 (s.step calls e).server.slowlogMaxLen)
    (hfront : s.server.slowlog ++ s.pushed e = front ++ (s.step calls e).server.slowlog)
    (holdest : ∀ x ∈ front, ∀ y ∈ (s.step calls e).server.slowlog, x.id < y.id) :
    s.Kept calls e := by
  refine ⟨hordered, hordered.newestFirst, hbounded, fun dropped hd x hx => ?_⟩
  rw [hfront, List.perm_append_right_iff] at hd
  exact holdest x (hd.mem_iff.2 hx)

/-- One step keeps what the log should be exactly if its push is in its turn. -/
theorem kept_iff (h : s.Ordered) : s.Kept calls e ↔ s.InTurn e := by
  rcases step_cases calls s e with ⟨call, entry, maxLen, rfl, hp, hpushed, hcap, hring⟩
    | ⟨hturn, hpushed, hring⟩ | ⟨hturn, hpushed, hring⟩
  · have hlen := length_pushBack s.server.slowlog entry maxLen
    have hfront := take_append_pushBack s.server.slowlog entry maxLen
    rw [← hpushed, ← hring] at hfront
    constructor
    · intro hk call' entry' maxLen' hcall hp'
      cases hcall
      rw [hp] at hp'
      cases hp'
      have hbounded := hk.bounded (by simp [hpushed])
      have hordered := hk.ordered
      have holdest := hk.oldest _ (.of_eq hfront.symm)
      rw [hring, hcap, hlen] at hbounded
      unfold Ordered at hordered
      rw [hring] at hordered holdest
      refine ⟨(ordered_pushBack_iff h).1 ⟨hordered, holdest⟩, ?_⟩
      omega
    · intro ht
      obtain ⟨hnewest, hroom⟩ := ht call entry maxLen rfl hp
      obtain ⟨hordered, holdest⟩ := (ordered_pushBack_iff h).2 hnewest
      rw [← hring] at hordered holdest
      refine .of_front hordered (fun _ => ?_) hfront.symm holdest
      rw [hring, hlen, hcap]
      omega
  · refine iff_of_true (@Kept.of_front _ _ _ s.server.slowlog ?_ (absurd hpushed) ?_ ?_) hturn
    · unfold Ordered
      rw [hring]
      exact .nil
    · rw [hpushed, hring]
    · rw [hring]
      exact fun _ _ y hy => absurd hy List.not_mem_nil
  · refine iff_of_true (@Kept.of_front _ _ _ [] ?_ (absurd hpushed) ?_ ?_) hturn
    · unfold Ordered
      rw [hring]
      exact h
    · rw [hpushed, hring, List.append_nil, List.nil_append]
    · exact fun x hx => absurd hx List.not_mem_nil

end Steps

theorem ordered_run {calls : ℕ → Reading × List Bytes} {s : SlowlogSystem} (h : s.Ordered)
    {events : List SlowlogEvent}
    (hkept : ∀ n e, events[n]? = some e → (s.run calls (events.take n)).Ordered →
      (s.run calls (events.take n)).Kept calls e) (n : ℕ) :
    (s.run calls (events.take n)).Ordered :=
  Runs.forall_take h (fun n e he ho => (hkept n e he ho).ordered) n

/-- Along every interleaving, each step keeps the log in order, within its cap, and drops the oldest
entries only, exactly if each push enters the ring in its turn. -/
theorem slowlog_kept_iff (calls : ℕ → Reading × List Bytes) (s : SlowlogSystem) (h : s.Ordered)
    (events : List SlowlogEvent) :
    (∀ n e, events[n]? = some e → (s.run calls (events.take n)).Kept calls e)
      ↔ ∀ n e, events[n]? = some e → (s.run calls (events.take n)).InTurn e := by
  constructor
  · intro hkept n e he
    exact (kept_iff (ordered_run h (fun n e he _ => hkept n e he) n)).1 (hkept n e he)
  · intro hturn n e he
    exact (kept_iff (ordered_run h (fun n e he ho => (kept_iff ho).2 (hturn n e he)) n)).2
      (hturn n e he)

/-- The steps of a call with no other thread in between are what the server does as one. -/
theorem run_push (calls : ℕ → Reading × List Bytes) (s : SlowlogSystem) (call : ℕ)
    (hp : s.phase call = .called) (hseq : s.server.slowlogSeq + 1 < 2 ^ 64) :
    s.run calls [.check call, .number call, .measure call, .insert call]
      = { s.enter call .returned with
          server := s.server.maybePushSlowlog (calls call).1 (calls call).2 } := by
  have hid : (s.server.slowlogSeq + 1) % 18446744073709551616 = s.server.slowlogSeq + 1 :=
    Nat.mod_eq_of_lt hseq
  unfold Server.maybePushSlowlog
  split_ifs with hlog
  · simp [run, step, enter, hp, hlog, hid, pushBack]
  · simp [run, step, enter, hp, hlog]

def allLogged : SlowlogSystem where
  server := { Server.new with slowlogSlowerThanUs := -1 }
  phase _ := .called

def bareCalls (_ : ℕ) : Reading × List Bytes := (Connection.steadyReading 0, [])

/-- Two calls, one after the other, with a lower cap for the second. -/
def serialPushes : List SlowlogEvent :=
  [.check 0, .number 0, .measure 0, .insert 0, .setMaxLen 1, .check 1, .number 1, .measure 1,
    .insert 1]

theorem inTurn_serialPushes (n : ℕ) (e : SlowlogEvent) (he : serialPushes[n]? = some e) :
    (allLogged.run bareCalls (serialPushes.take n)).InTurn e := by
  rintro call entry maxLen rfl hp
  rcases n with _ | _ | _ | _ | _ | _ | _ | _ | _ | n <;> cases he
  · cases hp
    decide
  · cases hp
    decide

/-- The second one drops the first. -/
theorem slowlog_kept_serial :
    (allLogged.run bareCalls serialPushes).server.slowlog.map (·.id) = [2]
      ∧ (allLogged.run bareCalls (serialPushes.take 8)).Kept bareCalls (.insert 1) :=
  ⟨by decide, (slowlog_kept_iff bareCalls allLogged List.Pairwise.nil serialPushes).2
    inTurn_serialPushes 8 (.insert 1) rfl⟩

/-- The second call takes its id after the first one and enters the ring before it. -/
def overtaking : List SlowlogEvent :=
  [.check 0, .number 0, .check 1, .number 1, .measure 1, .insert 1, .measure 0, .insert 0]

/-- The ring is out of order; with a cap of one, the newer entry is dropped; and with a cap that was
lowered meanwhile, the ring is longer than it. -/
theorem slowlog_overtaken :
    ((allLogged.run bareCalls overtaking).server.slowlog.map (·.id) = [2, 1]
        ∧ ¬ (allLogged.run bareCalls (overtaking.take 7)).Kept bareCalls (.insert 0))
      ∧ (allLogged.run bareCalls (.setMaxLen 1 :: overtaking)).server.slowlog.map (·.id) = [1]
      ∧ (allLogged.run bareCalls
          (serialPushes.take 4 ++ [.check 1, .number 1, .measure 1, .setMaxLen 1, .insert 1])
            ).server.slowlog.length = 2 := by
  refine ⟨⟨by decide, fun h => ?_⟩, by decide, by decide⟩
  have hordered := h.ordered
  unfold Ordered at hordered
  exact absurd hordered (by decide)

end FerrumKv.SlowlogSystem
