import FerrumKv.Proofs.Appendable

/-!
# A damaged region between records

Bytes on which decoding fails are taken alike whatever follows them, and the search for the next `*`
stops at the first byte of the records behind them. So a damaged region between accepted records is
skipped once and costs none of them (`replay_damaged`); with nothing behind it, it is cut off.
-/

namespace FerrumKv

section Loop

variable {env : Env}

theorem Accepts.append : ∀ {xs ys : List (List Bytes)} {s : KvEngine}, Accepts env s (xs ++ ys) →
    Accepts env s xs ∧ Accepts env (applyParts env s xs) ys
  | [], _, _, h => ⟨trivial, h⟩
  | _ :: _, _, _, h => ⟨⟨h.1, h.2.append.1⟩, h.2.append.2⟩

theorem replayLoop_enough (len : ℕ) {rest : Bytes} (st : ReplayState) {fuel fuel' : ℕ}
    (h : rest.length < fuel) (h' : rest.length < fuel') :
    replayLoop env len fuel rest st = replayLoop env len fuel' rest st := by
  obtain ⟨buffers, res, hloop⟩ := replayLoop_ends env len rest st
  rw [hloop.eq h, hloop.eq h']

theorem replayLoop_records (len : ℕ) (st : ReplayState) {records : List (List Bytes)}
    {rest : Bytes} (hacc : Accepts env st.engine records)
    (hrep : ∀ parts ∈ records, Representable parts) {fuel : ℕ}
    (hfuel : (encodeAll records ++ rest).length < fuel) :
    replayLoop env len fuel (encodeAll records ++ rest) st
      = replayLoop env len (rest.length + 1) rest
        { engine := applyParts env st.engine records
          stats := { st.stats with applied := st.stats.applied + records.length }
          lastGood := if records = [] then st.lastGood else len - rest.length } := by
  have hmore : (encodeAll records ++ rest).length < records.length + fuel := by omega
  have hrest : rest.length < fuel := by
    rw [List.length_append] at hfuel
    omega
  rw [replayLoop_enough len st hfuel hmore,
    replayLoop_encodeAll env len fuel records rest st hacc hrep]
  exact replayLoop_enough len _ hrest (Nat.lt_succ_self _)

theorem replayLoop_nil (len fuel : ℕ) (st : ReplayState) :
    replayLoop env len (fuel + 1) [] st = .ok st := by
  rw [replayLoop_succ]
  rfl

theorem encodeAll_star (parts : List Bytes) (records : List (List Bytes)) :
    ∃ rest, encodeAll (parts :: records) = 42 :: rest :=
  ⟨_, rfl⟩

/-- A damaged region is skipped, and the records behind it are applied. -/
theorem replayLoop_damaged (len : ℕ) (st : ReplayState) {taken skipped : Bytes}
    (hdamage : IsDamage taken) (hskip : 42 ∉ skipped) {records : List (List Bytes)}
    (hne : records ≠ []) (hacc : Accepts env st.engine records)
    (hrep : ∀ parts ∈ records, Representable parts) :
    ∃ good, replayLoop env len ((taken ++ skipped ++ encodeAll records).length + 1)
        (taken ++ skipped ++ encodeAll records) st
      = .ok ⟨applyParts env st.engine records, { st.stats with
          applied := st.stats.applied + records.length, skipped := st.stats.skipped + 1 }, good⟩ := by
  obtain ⟨parts, records', rfl⟩ := List.exists_cons_of_ne_nil hne
  obtain ⟨rest, hrest⟩ := encodeAll_star parts records'
  have hpos := List.length_pos_iff.2 hdamage.ne_nil
  have hfuel : (encodeAll (parts :: records') ++ []).length
      < (taken ++ skipped ++ encodeAll (parts :: records')).length := by
    simp only [List.append_nil, List.length_append]
    omega
  have hround : replayRound env len (taken ++ skipped ++ 42 :: rest) st = _ :=
    replayRound_damaged hdamage hskip rest
  have hloop := replayLoop_records len ⟨st.engine, { st.stats with
    skipped := st.stats.skipped + 1 }, st.lastGood + taken.length⟩ hacc hrep hfuel
  rw [List.append_nil, List.length_nil, replayLoop_nil] at hloop
  rw [← hrest] at hround
  rw [replayLoop_succ, hround]
  exact ⟨_, hloop⟩

theorem take_good (A : List (List Bytes)) (m : Bytes) :
    (encodeAll A ++ m).take (if A = [] then 0 else (encodeAll A ++ m).length - m.length)
      = encodeAll A := by
  split_ifs with hA
  · subst hA
    rfl
  · rw [List.length_append, Nat.add_sub_cancel, List.take_left]

/-- A damaged region at the end is cut off. -/
theorem replay_lost {s : KvEngine} {A : List (List Bytes)} (hacc : Accepts env s A)
    (hrep : ∀ parts ∈ A, Representable parts) {taken skipped : Bytes} (hdamage : IsDamage taken)
    (hskip : 42 ∉ skipped) :
    replay env (encodeAll A ++ (taken ++ skipped)) s
      = .ok ⟨applyParts env s A, { applied := A.length, skipped := 1, truncatedTail := true },
        encodeAll A⟩ := by
  have hround : ∀ len st, replayRound env len (taken ++ skipped) st = _ :=
    fun len st => replayRound_lost hdamage hskip
  have hcut := take_good A (taken ++ skipped)
  unfold replay
  rw [replayLoop_records _ { engine := s } hacc hrep (Nat.lt_succ_self _), replayLoop_succ, hround]
  simpa using hcut

/-- A damaged region before another record leaves the file as it is. -/
theorem replay_between {s : KvEngine} {A B : List (List Bytes)} (hacc : Accepts env s (A ++ B))
    (hrep : ∀ parts ∈ A ++ B, Representable parts) {taken skipped : Bytes}
    (hdamage : IsDamage taken) (hskip : 42 ∉ skipped) (hB : B ≠ []) :
    replay env (encodeAll A ++ (taken ++ skipped ++ encodeAll B)) s
      = .ok ⟨applyParts env s (A ++ B), { applied := A.length + B.length, skipped := 1 },
        encodeAll A ++ (taken ++ skipped ++ encodeAll B)⟩ := by
  obtain ⟨haccA, haccB⟩ := hacc.append
  have hrepA : ∀ parts ∈ A, Representable parts := fun p hp => hrep p (List.mem_append_left _ hp)
  have hrepB : ∀ parts ∈ B, Representable parts := fun p hp => hrep p (List.mem_append_right _ hp)
  unfold replay
  generalize hlen : (encodeAll A ++ (taken ++ skipped ++ encodeAll B)).length = len
  rw [replayLoop_records len { engine := s } haccA hrepA (hlen ▸ Nat.lt_succ_self _)]
  obtain ⟨good, hloop⟩ := replayLoop_damaged len ⟨applyParts env s A, { applied := 0 + A.length },
    if A = [] then 0 else len - (taken ++ skipped ++ encodeAll B).length⟩ hdamage hskip hB haccB hrepB
  rw [hloop, applyParts_append]
  simp

end Loop

/-- A damaged region `m`, on which decoding alone fails after `c` bytes with no `*` behind them,
costs no record before or after it. It is skipped once, and cut off if it is the last. -/
theorem replay_damaged (env : Env) (s : KvEngine) (A B : List (List Bytes))
    (hacc : Accepts env s (A ++ B)) (hrep : ∀ parts ∈ A ++ B, Representable parts) (m : Bytes)
    (why : Malformed) (c : ℕ) (rest : Bytes)
    (hm : readRecord m = (.error (.malformed why c), rest)) (hstar : 42 ∉ m.drop c) :
    replay env (encodeAll A ++ encodeAll B) s
        = .ok ⟨applyParts env s (A ++ B), { applied := A.length + B.length },
          encodeAll A ++ encodeAll B⟩
      ∧ replay env (encodeAll A ++ m ++ encodeAll B) s
        = .ok ⟨applyParts env s (A ++ B),
          { applied := A.length + B.length, skipped := 1, truncatedTail := decide (B = []) },
          if B = [] then encodeAll A else encodeAll A ++ m ++ encodeAll B⟩ := by
  obtain ⟨taken, rfl, rfl, -, hmore⟩ := isDamage_of_readRecord hm
  rw [List.drop_left] at hstar
  have hdamage : IsDamage taken := ⟨why, hmore⟩
  constructor
  · have h := replay_encodeAll env hacc hrep
    rwa [encodeAll, List.flatMap_append, List.length_append] at h
  · rw [List.append_assoc]
    by_cases hB : B = []
    · subst hB
      have hnil : encodeAll [] = [] := rfl
      rw [List.append_nil] at hacc hrep ⊢
      rw [hnil, List.append_nil, replay_lost hacc hrep hdamage hstar]
      simp
    · rw [replay_between hacc hrep hdamage hstar hB]
      simp [hB]

/-- A bulk string of four bytes declared to have three, between two records. -/
theorem replay_damaged_hset :
    replay (.steady 0) (encodeAll [[text "SET", [97], [49]]] ++ encodeAll [[text "SET", [98], [50]]])
        .new
      = .ok ⟨applyParts (.steady 0) .new [[text "SET", [97], [49]], [text "SET", [98], [50]]],
        { applied := 2 },
        encodeAll [[text "SET", [97], [49]]] ++ encodeAll [[text "SET", [98], [50]]]⟩
      ∧ replay (.steady 0) (encodeAll [[text "SET", [97], [49]]]
          ++ text "*2\r\n$3\r\nHSET\r\n$1\r\nx\r\n" ++ encodeAll [[text "SET", [98], [50]]]) .new
        = .ok ⟨applyParts (.steady 0) .new [[text "SET", [97], [49]], [text "SET", [98], [50]]],
          { applied := 2, skipped := 1, truncatedTail := false },
          encodeAll [[text "SET", [97], [49]]] ++ text "*2\r\n$3\r\nHSET\r\n$1\r\nx\r\n"
            ++ encodeAll [[text "SET", [98], [50]]]⟩ :=
  replay_damaged (.steady 0) .new [[text "SET", [97], [49]]] [[text "SET", [98], [50]]]
    ⟨by decide, by decide, trivial⟩ (by unfold Representable; decide)
    (text "*2\r\n$3\r\nHSET\r\n$1\r\nx\r\n") .missingCrlf 13 (text "\n$1\r\nx\r\n")
    (by decide) (by decide)

end FerrumKv
