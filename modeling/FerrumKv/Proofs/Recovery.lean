import FerrumKv.Proofs.Replay

/-!
# Recovery from a cut log

A crash cuts the log at some byte. More input changes nothing of a reading that did not reach the end
of its input (`Reader.Streams`), so a record cut short is read as the end of the file and never as
malformed (`readRecord_cut`). Replaying a cut log therefore applies exactly the records that are
complete, drops the rest of the file, and leaves it ready to be appended to (`crash_recovery`).
-/

namespace FerrumKv

variable {records : List (List Bytes)} {p cut : Bytes} {n : ℕ}

namespace Reader

/-! ## Reading and more input -/

def append (r : Reader) (ext : Bytes) : Reader := ⟨r.rest ++ ext, r.consumed⟩

/-- A reading that did not reach the end of its input is the same on more input, and none uncounts
bytes. -/
structure Streams {α : Type} (f : Reader → Except ReadError α × Reader) : Prop where
  more : ∀ r ext, (∀ c, (f r).1 ≠ .error (.unexpectedEof c)) →
    f (r.append ext) = ((f r).1, (f r).2.append ext)
  counts : ∀ r, r.consumed ≤ (f r).2.consumed
  eof : ∀ r c, (f r).1 = .error (.unexpectedEof c) → r.consumed ≤ c

/-- One reading, then another that is told what the first one read. -/
def andThen {α β : Type} (f : Reader → Except ReadError α × Reader)
    (g : α → Reader → Except ReadError β × Reader) (r : Reader) : Except ReadError β × Reader :=
  match f r with
  | (.error e, r) => (.error e, r)
  | (.ok a, r) => g a r

section Streams

variable {α β : Type} {f : Reader → Except ReadError α × Reader}
  {g : α → Reader → Except ReadError β × Reader}

theorem andThen_ok {r r' : Reader} {a : α} (h : f r = (.ok a, r')) : andThen f g r = g a r' := by
  unfold andThen
  rw [h]

theorem andThen_error {r r' : Reader} {e : ReadError} (h : f r = (.error e, r')) :
    andThen f g r = (.error e, r') := by
  unfold andThen
  rw [h]

theorem Streams.andThen (hf : Streams f) (hg : ∀ a, Streams (g a)) :
    Streams (Reader.andThen f g) where
  more r ext h := by
    rcases hr : f r with ⟨e | a, r'⟩
    · rw [andThen_error hr] at h ⊢
      have hmore := hf.more r ext (by
        rw [hr]
        exact fun c hc => h c (by cases hc; rfl))
      rw [hr] at hmore
      exact andThen_error hmore
    · rw [andThen_ok hr] at h ⊢
      have hmore := hf.more r ext (by rw [hr]; exact fun c hc => by cases hc)
      rw [hr] at hmore
      rw [andThen_ok hmore]
      exact (hg a).more r' ext h
  counts r := by
    have hle := hf.counts r
    rcases hr : f r with ⟨e | a, r'⟩ <;> rw [hr] at hle
    · rw [andThen_error hr]
      exact hle
    · rw [andThen_ok hr]
      exact hle.trans ((hg a).counts r')
  eof r c h := by
    have hle := hf.counts r
    rcases hr : f r with ⟨e | a, r'⟩ <;> rw [hr] at hle
    · rw [andThen_error hr] at h
      exact hf.eof r c (by rw [hr]; cases h; rfl)
    · rw [andThen_ok hr] at h
      exact hle.trans ((hg a).eof r' c h)

theorem streams_verdict (x : ℕ → Except ReadError α)
    (h : ∀ n c, x n ≠ .error (.unexpectedEof c)) : Streams fun r => (x r.consumed, r) where
  more _ _ _ := rfl
  counts _ := le_rfl
  eof _ c hc := absurd hc (h _ c)

theorem Streams.ite {p : Prop} [Decidable p] {f' : Reader → Except ReadError α × Reader}
    (hf : Streams f) (hf' : Streams f') : Streams fun r => if p then f r else f' r := by
  by_cases hp : p
  · simpa only [hp, if_true] using hf
  · simpa only [hp, if_false] using hf'

end Streams

/-! ## The readers -/

theorem expectByte_streams : Streams expectByte where
  more r ext h := by
    rcases r with ⟨_ | ⟨b, rest⟩, n⟩
    · exact absurd rfl (h n)
    · rfl
  counts r := by
    rcases r with ⟨_ | ⟨b, rest⟩, n⟩
    · exact le_rfl
    · exact Nat.le_succ n
  eof r c hc := by
    rcases r with ⟨_ | ⟨b, rest⟩, n⟩
    · cases hc
      exact le_rfl
    · cases hc

theorem readExact_streams (len : ℕ) : Streams fun r => r.readExact len where
  more r ext h := by
    unfold readExact at h ⊢
    by_cases hlen : r.rest.length < len
    · rw [if_pos hlen] at h
      exact absurd rfl (h _)
    · have happ : ¬ (r.append ext).rest.length < len := by
        unfold append
        rw [List.length_append]
        omega
      rw [if_neg hlen, if_neg happ]
      unfold append
      rw [List.take_append_of_le_length (by omega), List.drop_append_of_le_length (by omega)]
  counts r := by
    unfold readExact
    split_ifs
    · exact Nat.le_add_right _ _
    · exact Nat.le_add_right _ _
  eof r c hc := by
    unfold readExact at hc
    split_ifs at hc
    cases hc
    exact Nat.le_add_right _ _

theorem readLine_more (ext : Bytes) : ∀ (rest : Bytes) (n : ℕ) (acc : Bytes),
    (∀ c, (readLine rest n acc).1 ≠ .error (.unexpectedEof c)) →
      readLine (rest ++ ext) n acc = ((readLine rest n acc).1, (readLine rest n acc).2.append ext)
  | [], n, acc, h => absurd rfl (h n)
  | b :: rest, n, acc, h => by
    rw [List.cons_append]
    unfold readLine at h ⊢
    split_ifs at h ⊢
    · rfl
    · exact readLine_more ext rest (n + 1) _ h

theorem readLine_counts : ∀ (rest : Bytes) (n : ℕ) (acc : Bytes),
    n ≤ (readLine rest n acc).2.consumed
      ∧ ∀ c, (readLine rest n acc).1 = .error (.unexpectedEof c) → n ≤ c
  | [], n, acc => ⟨le_rfl, fun c hc => by cases hc; exact le_rfl⟩
  | b :: rest, n, acc => by
    unfold readLine
    split_ifs
    · exact ⟨Nat.le_succ n, fun c hc => by cases hc⟩
    · obtain ⟨hle, heof⟩ := readLine_counts rest (n + 1) (acc ++ [b])
      exact ⟨(Nat.le_succ n).trans hle, fun c hc => (Nat.le_succ n).trans (heof c hc)⟩

theorem readLine_streams : Streams fun r => readLine r.rest r.consumed [] where
  more r ext h := readLine_more ext r.rest r.consumed [] h
  counts r := (readLine_counts r.rest r.consumed []).1
  eof r := (readLine_counts r.rest r.consumed []).2

theorem readInteger_eq : readInteger
    = andThen (fun r => readLine r.rest r.consumed []) fun number => andThen expectByte fun lf r =>
      if lf ≠ 10 then (.error (.malformed .missingLf r.consumed), r)
      else
        match parseI64 number with
        | some n => (.ok n.toInt, r)
        | none => (.error (.malformed .badInteger r.consumed), r) := by
  funext r
  simp only [readInteger, andThen]
  rcases readLine r.rest r.consumed [] with ⟨_ | number, r₁⟩
  · rfl
  simp only []
  rcases expectByte r₁ with ⟨_ | lf, r₂⟩ <;> rfl

theorem readInteger_streams : Streams readInteger := by
  rw [readInteger_eq]
  refine readLine_streams.andThen fun number => expectByte_streams.andThen fun lf => .ite
    (streams_verdict (fun n => .error (.malformed .missingLf n)) fun n c h => by cases h) ?_
  cases parseI64 number with
  | none => exact streams_verdict (fun n => .error (.malformed .badInteger n)) fun n c h => by cases h
  | some n => exact streams_verdict (fun _ => .ok n.toInt) fun n c h => by cases h

theorem readBulk_eq : readBulk
    = andThen expectByte fun marker r =>
      if marker ≠ 36 then (.error (.malformed (.expectedDollar marker) r.consumed), r)
      else andThen readInteger (fun len r =>
        if len < 0 then (.error (.malformed (.negativeBulkLength len) r.consumed), r)
        else andThen (fun r => r.readExact len.toNat) (fun buf => andThen expectByte fun cr =>
          andThen expectByte fun lf r =>
            if cr ≠ 13 ∨ lf ≠ 10 then (.error (.malformed .missingCrlf r.consumed), r)
            else (.ok buf, r)) r) r := by
  funext r
  unfold readBulk andThen
  rcases expectByte r with ⟨_ | marker, r₁⟩
  · rfl
  simp only []
  rcases readInteger r₁ with ⟨_ | len, r₂⟩
  · rfl
  simp only []
  rcases readExact r₂ len.toNat with ⟨_ | buf, r₃⟩
  · rfl
  simp only []
  rcases expectByte r₃ with ⟨_ | cr, r₄⟩
  · rfl
  simp only []
  rcases expectByte r₄ with ⟨_ | lf, r₅⟩ <;> rfl

theorem readBulk_streams : Streams readBulk := by
  rw [readBulk_eq]
  refine expectByte_streams.andThen fun marker => .ite (streams_verdict
    (fun n => .error (.malformed (.expectedDollar marker) n)) fun n c h => by cases h) ?_
  refine readInteger_streams.andThen fun len => .ite (streams_verdict
    (fun n => .error (.malformed (.negativeBulkLength len) n)) fun n c h => by cases h) ?_
  refine (readExact_streams len.toNat).andThen fun buf => expectByte_streams.andThen fun cr =>
    expectByte_streams.andThen fun lf => .ite (streams_verdict
      (fun n => .error (.malformed .missingCrlf n)) fun n c h => by cases h) ?_
  exact streams_verdict (fun _ => .ok buf) fun n c h => by cases h

theorem readBulks_succ (n : ℕ) : readBulks (n + 1)
    = andThen readBulk fun part => andThen (readBulks n) fun parts r => (.ok (part :: parts), r) := by
  funext r
  unfold readBulks andThen
  rcases readBulk r with ⟨_ | part, r₁⟩
  · rfl
  simp only []
  rcases readBulks n r₁ with ⟨_ | parts, r₂⟩ <;> rfl

theorem readBulks_streams : ∀ n, Streams (readBulks n)
  | 0 => streams_verdict (fun _ => .ok []) fun n c h => by cases h
  | n + 1 => by
    rw [readBulks_succ]
    exact readBulk_streams.andThen fun part => (readBulks_streams n).andThen fun parts =>
      streams_verdict (fun _ => .ok (part :: parts)) fun n c h => by cases h

def readBody (first : UInt8) : Reader → Except ReadError (Option (List Bytes)) × Reader :=
  fun r =>
    if first ≠ 42 then (.error (.malformed (.expectedStar first) r.consumed), r)
    else andThen readInteger (fun arrayLen r =>
      if arrayLen < 0 then (.error (.malformed (.negativeArrayLength arrayLen) r.consumed), r)
      else andThen (readBulks arrayLen.toNat) (fun parts r => (.ok (some parts), r)) r) r

theorem readBody_streams (first : UInt8) : Streams (readBody first) := by
  refine .ite (streams_verdict
    (fun n => .error (.malformed (.expectedStar first) n)) fun n c h => by cases h) ?_
  refine readInteger_streams.andThen fun len => .ite (streams_verdict
    (fun n => .error (.malformed (.negativeArrayLength len) n)) fun n c h => by cases h) ?_
  exact (readBulks_streams len.toNat).andThen fun parts =>
    streams_verdict (fun _ => .ok (some parts)) fun n c h => by cases h

end Reader

theorem readRecord_cons (first : UInt8) (rest : Bytes) :
    readRecord (first :: rest)
      = ((Reader.readBody first ⟨rest, 1⟩).1, (Reader.readBody first ⟨rest, 1⟩).2.rest) := by
  unfold readRecord Reader.readBody Reader.andThen
  simp only []
  split_ifs
  · rfl
  rcases Reader.readInteger ⟨rest, 1⟩ with ⟨_ | len, r₁⟩
  · rfl
  simp only []
  split_ifs
  · rfl
  rcases Reader.readBulks len.toNat r₁ with ⟨_ | parts, r₂⟩ <;> rfl

/-- The bytes of a record without its last ones are read as the end of the file. -/
theorem readRecord_cut {parts : List Bytes} (hrep : Representable parts) {cut ext : Bytes}
    (h : cut ++ ext = encodeCommand parts) (hcut : cut ≠ []) (hext : ext ≠ []) :
    ∃ c, 0 < c ∧ (readRecord cut).1 = .error (.unexpectedEof c) := by
  obtain ⟨first, rest, rfl⟩ := List.exists_cons_of_ne_nil hcut
  have hs := Reader.readBody_streams first
  by_contra hne
  push Not at hne
  rw [readRecord_cons] at hne
  have hmore := hs.more ⟨rest, 1⟩ ext fun c hc => hne c (hs.eof _ c hc) hc
  have hread := readRecord_encodeCommand hrep.1 hrep.2 []
  rw [List.append_nil, ← h, List.cons_append, readRecord_cons] at hread
  have hrest := congrArg Prod.snd hread
  change (Reader.readBody first ((⟨rest, 1⟩ : Reader).append ext)).2.rest = [] at hrest
  rw [hmore] at hrest
  exact hext (List.append_eq_nil_iff.1 hrest).2

/-! ## Where a cut falls -/

/-- The bytes `p` are those of the first `n` records followed by `cut`, the beginning of the next. -/
structure CutAt (records : List (List Bytes)) (p : Bytes) (n : ℕ) (cut : Bytes) : Prop where
  le : n ≤ records.length
  bytes : p = encodeAll (records.take n) ++ cut
  inside : cut ≠ [] →
    ∃ parts tail, records[n]? = some parts ∧ tail ≠ [] ∧ cut ++ tail = encodeCommand parts
  next : n < records.length → p.length < (encodeAll (records.take (n + 1))).length

theorem encodeAll_cons (parts : List Bytes) (records : List (List Bytes)) :
    encodeAll (parts :: records) = encodeCommand parts ++ encodeAll records :=
  List.flatMap_cons

theorem encodeAll_append (xs ys : List (List Bytes)) :
    encodeAll (xs ++ ys) = encodeAll xs ++ encodeAll ys :=
  List.flatMap_append

theorem CutAt.cons (h : CutAt records p n cut)
    (parts : List Bytes) : CutAt (parts :: records) (encodeCommand parts ++ p) (n + 1) cut where
  le := Nat.succ_le_succ h.le
  bytes := by rw [List.take_succ_cons, encodeAll_cons, List.append_assoc, ← h.bytes]
  inside := h.inside
  next hlt := by
    have := h.next (Nat.lt_of_succ_lt_succ hlt)
    rw [List.take_succ_cons, encodeAll_cons, List.length_append, List.length_append]
    omega

/-- Every beginning of the bytes of some records is a cut. -/
theorem exists_cutAt : ∀ (records : List (List Bytes)) (p : Bytes), p <+: encodeAll records →
    ∃ n cut, CutAt records p n cut
  | [], p, h => by
    obtain rfl := List.prefix_nil.1 h
    exact ⟨0, [], le_rfl, rfl, fun hne => absurd rfl hne, fun hlt => absurd hlt (Nat.lt_irrefl 0)⟩
  | parts :: records, p, h => by
    rw [encodeAll_cons] at h
    have hhead : encodeCommand parts <+: encodeCommand parts ++ encodeAll records := ⟨_, rfl⟩
    by_cases hle : (encodeCommand parts).length ≤ p.length
    · obtain ⟨p', rfl⟩ := List.prefix_of_prefix_length_le hhead h hle
      obtain ⟨n, cut, hcut⟩ := exists_cutAt records p' ((List.prefix_append_right_inj _).1 h)
      exact ⟨n + 1, cut, hcut.cons parts⟩
    · obtain ⟨tail, htail⟩ := List.prefix_of_prefix_length_le h hhead (by omega)
      have hne : tail ≠ [] := by
        rintro rfl
        rw [List.append_nil] at htail
        rw [htail] at hle
        exact hle le_rfl
      refine ⟨0, p, Nat.zero_le _, rfl, fun _ => ⟨parts, tail, rfl, hne, htail⟩, fun _ => ?_⟩
      rw [List.take_succ_cons, encodeAll_cons, List.length_append]
      omega

theorem length_encodeAll_take_le (records : List (List Bytes)) {m n : ℕ} (h : m ≤ n) :
    (encodeAll (records.take m)).length ≤ (encodeAll (records.take n)).length := by
  have hsplit : records.take m ++ (records.take n).drop m = records.take n := by
    have := List.take_append_drop m (records.take n)
    rwa [List.take_take, min_eq_left h] at this
  rw [← hsplit, encodeAll_append, List.length_append]
  exact Nat.le_add_right _ _

/-- The records before the cut are those whose bytes lie inside it. -/
theorem CutAt.lt_iff (h : CutAt records p n cut) {i : ℕ} (hi : i < records.length) :
    i < n ↔ (encodeAll (records.take (i + 1))).length ≤ p.length := by
  constructor
  · intro hlt
    have hle := length_encodeAll_take_le records (show i + 1 ≤ n by omega)
    rw [h.bytes, List.length_append]
    omega
  · intro hle
    by_contra hge
    have hmono := length_encodeAll_take_le records (show n + 1 ≤ i + 1 by omega)
    have hnext := h.next (by omega)
    omega

theorem CutAt.ne_nil_iff
    (h : CutAt records p n cut) : cut ≠ [] ↔ ∀ m, p ≠ encodeAll (records.take m) := by
  constructor
  · intro hne m hm
    have hlt : (encodeAll (records.take n)).length < p.length := by
      have := List.length_pos_iff.2 hne
      rw [h.bytes, List.length_append]
      omega
    have hnm : n < m := by
      by_contra hge
      have := length_encodeAll_take_le records (show m ≤ n by omega)
      rw [hm] at hlt
      omega
    have hlen : n < records.length := by
      by_contra hge
      rw [List.take_of_length_le (show records.length ≤ m by omega)] at hm
      rw [List.take_of_length_le (show records.length ≤ n by omega), hm] at hlt
      omega
    have hle := length_encodeAll_take_le records (show n + 1 ≤ m by omega)
    have hnext := h.next hlen
    rw [hm] at hnext
    omega
  · rintro hne rfl
    exact hne n (by rw [h.bytes, List.append_nil])

section Recovery

variable {env : Env}

theorem Accepts.take : ∀ {records : List (List Bytes)} {s : KvEngine}, Accepts env s records →
    ∀ n, Accepts env s (records.take n)
  | _, _, _, 0 => trivial
  | [], _, _, _ + 1 => trivial
  | _ :: _, _, h, n + 1 => ⟨h.1, h.2.take n⟩

/-- A cut log replays as its complete records, and the rest of the file is dropped. -/
theorem CutAt.replay {s : KvEngine} (h : CutAt records p n cut) (hacc : Accepts env s records)
    (hrep : ∀ parts ∈ records, Representable parts) :
    FerrumKv.replay env p s
      = .ok ⟨applyParts env s (records.take n),
          { applied := n, truncatedTail := decide (cut ≠ []) }, encodeAll (records.take n)⟩ := by
  have hn : (records.take n).length = n := List.length_take_of_le h.le
  have hlen : p.length = (encodeAll (records.take n)).length + cut.length := by
    rw [h.bytes, List.length_append]
  have hle := length_le_encodeAll (records.take n)
  obtain ⟨fuel, hf⟩ : ∃ fuel, p.length + 1 = (records.take n).length + (fuel + 1) :=
    ⟨p.length - (records.take n).length, by omega⟩
  have hloop := replayLoop_encodeAll env p.length (fuel + 1) (records.take n) cut { engine := s }
    (hacc.take n) fun parts hp => hrep parts (List.mem_of_mem_take hp)
  rw [← h.bytes, hn] at hloop
  unfold FerrumKv.replay
  rw [hf, hn, hloop]
  by_cases hcut : cut = []
  · have hp : p = encodeAll (records.take n) := by rw [h.bytes, hcut, List.append_nil]
    simp [hcut, replayLoop, readRecord, hp]
  · obtain ⟨parts, tail, hget, htail, hbytes⟩ := h.inside hcut
    obtain ⟨c, hc, heof⟩ := readRecord_cut (hrep parts (List.mem_of_getElem? hget)) hbytes hcut htail
    have hfile : p.take (if records.take n = [] then 0 else p.length - cut.length)
        = encodeAll (records.take n) := by
      rw [hlen, Nat.add_sub_cancel, h.bytes]
      split_ifs with hnil
      · rw [hnil]
        rfl
      · exact List.take_left
    unfold replayLoop
    rcases hr : readRecord cut with ⟨res, rest⟩
    rw [hr] at heof
    simp only [] at heof
    subst heof
    simp only [if_pos hc, zero_add, if_true, hfile, decide_not, decide_eq_false hcut, Bool.not_false]

/-- What replaying the cut log `p` leaves: the records whose bytes lie inside the cut are applied in
order and no record is skipped, a truncated tail is reported exactly when the cut is inside a record,
and the file ends with the last complete record. Appended to and replayed again, it gives these
records followed by all that was appended. -/
structure Recovers (env : Env) (s : KvEngine) (records : List (List Bytes)) (p : Bytes) (n : ℕ)
    (r : Replayed) : Prop where
  complete : ∀ i < records.length, i < n ↔ (encodeAll (records.take (i + 1))).length ≤ p.length
  engine : r.engine = applyParts env s (records.take n)
  applied : r.stats.applied = n
  skipped : r.stats.skipped = 0
  truncatedTail : r.stats.truncatedTail = true ↔ ∀ m, p ≠ encodeAll (records.take m)
  file : r.file = encodeAll (records.take n)
  again : ∀ (env' : Env) (s' : KvEngine) (more : List (List Bytes)),
    (∀ parts ∈ more, Representable parts) → Accepts env' s' (records.take n ++ more) →
    replay env' (r.file ++ encodeAll more) s'
      = .ok ⟨applyParts env' s' (records.take n ++ more), { applied := n + more.length },
          r.file ++ encodeAll more⟩

theorem CutAt.again (h : CutAt records p n cut)
    (hrep : ∀ parts ∈ records, Representable parts) (env' : Env) (s' : KvEngine)
    (more : List (List Bytes)) (hmore : ∀ parts ∈ more, Representable parts)
    (hacc : Accepts env' s' (records.take n ++ more)) :
    FerrumKv.replay env' (encodeAll (records.take n) ++ encodeAll more) s'
      = .ok ⟨applyParts env' s' (records.take n ++ more), { applied := n + more.length },
          encodeAll (records.take n) ++ encodeAll more⟩ := by
  have hn : (records.take n).length = n := List.length_take_of_le h.le
  have hall : ∀ parts ∈ records.take n ++ more, Representable parts := by
    intro parts hmem
    rcases List.mem_append.1 hmem with hmem | hmem
    · exact hrep parts (List.mem_of_mem_take hmem)
    · exact hmore parts hmem
  have := replay_encodeAll env' hacc hall
  rwa [encodeAll_append, List.length_append, hn] at this

/-- Recovery from a log cut anywhere; a record is read back from its bytes, whatever follows them. -/
theorem crash_recovery {s : KvEngine} {records : List (List Bytes)} {p : Bytes}
    (hacc : Accepts env s records) (hrep : ∀ parts ∈ records, Representable parts)
    (hp : p <+: encodeAll records) :
    (∃ n ≤ records.length, ∃ r, replay env p s = .ok r ∧ Recovers env s records p n r)
      ∧ ∀ parts rest, Representable parts →
        readRecord (encodeCommand parts ++ rest) = (.ok (some parts), rest) := by
  refine ⟨?_, fun parts rest h => readRecord_encodeCommand h.1 h.2 rest⟩
  obtain ⟨n, cut, hcut⟩ := exists_cutAt records p hp
  refine ⟨n, hcut.le, _, hcut.replay hacc hrep, fun i => hcut.lt_iff, rfl, rfl, rfl, ?_, rfl,
    hcut.again hrep⟩
  rw [decide_eq_true_eq]
  exact hcut.ne_nil_iff

/-- `SET` of a value that looks like the beginning of a record, and `DEL`. -/
def cutLog : List (List Bytes) :=
  [[ascii ['S', 'E', 'T'], [107], [13, 10, 42, 36]], [ascii ['D', 'E', 'L'], [107]]]

/-- The second of two records is cut. -/
theorem crash_recovery_cutLog :
    (∃ n ≤ 2, ∃ r, replay (Env.steady 0) ((encodeAll cutLog).take 45) KvEngine.new = .ok r
        ∧ Recovers (Env.steady 0) KvEngine.new cutLog ((encodeAll cutLog).take 45) n r)
      ∧ ∀ parts rest, Representable parts →
        readRecord (encodeCommand parts ++ rest) = (.ok (some parts), rest) := by
  have hacc : Accepts (Env.steady 0) KvEngine.new cutLog := ⟨by decide, by decide, trivial⟩
  have hrep : ∀ parts ∈ cutLog, Representable parts := by simp [cutLog, Representable, ascii]
  exact crash_recovery hacc hrep (List.take_prefix 45 _)

end Recovery

end FerrumKv
