import FerrumKv.Parser

/-!
# The parser on growing buffers

What a reader says of a buffer rests on the bytes it takes, or on the whole buffer where it fails
(`readIntegerLine_local` and its siblings). So a request is decided by its own bytes
(`parseFrame_take`), an answer other than a call for more input stays the same on every longer
buffer (`parseFrame_append`), and no index or slice is out of range (`parseFrame_ne_panic`).
-/

namespace FerrumKv.Protocol

variable {args : List Bytes} {b : Bytes} {c : Command} {float : FloatOps} {cmd : String} {start : ℕ}

/-! ## Buffers with a common beginning -/

/-- The two buffers have the same first `k` bytes. -/
structure Agree (k : ℕ) (b b' : Bytes) : Prop where
  le : k ≤ b.length
  take : b'.take k = b.take k

section Agree

variable {b b' : Bytes} {j k : ℕ}

theorem Agree.mono (h : Agree k b b') (hj : j ≤ k) : Agree j b b' where
  le := hj.trans h.le
  take := by
    rw [← min_eq_left hj, ← List.take_take, ← List.take_take, h.take]

theorem Agree.le_length (h : Agree k b b') : k ≤ b'.length := by
  have hlen := congrArg List.length h.take
  rw [List.length_take, List.length_take, min_eq_left h.le] at hlen
  omega

theorem Agree.append (h : k ≤ b.length) (c : Bytes) : Agree k b (b ++ c) :=
  ⟨h, List.take_append_of_le_length h⟩

theorem Agree.of_take (h : k ≤ b.length) : Agree k b (b.take k) :=
  ⟨h, by rw [List.take_take, min_self]⟩

theorem index_local (h : Agree k b b') {i : ℕ} (hi : i < k) : index b' i = index b i := by
  have htake : (b'.take k)[i]? = (b.take k)[i]? := by rw [h.take]
  rw [List.getElem?_take_of_lt hi, List.getElem?_take_of_lt hi] at htake
  unfold index
  rw [htake]

end Agree

theorem crlfPosition_bounds : ∀ (b : Bytes) {p : ℕ}, crlfPosition b = some p → p + 2 ≤ b.length
  | [], _, h => by cases h
  | x :: rest, p, h => by
    unfold crlfPosition at h
    split_ifs at h with hx
    · cases h
      rcases rest with _ | ⟨y, rest⟩
      · cases hx.2
      · simp only [List.length_cons]
        omega
    · obtain ⟨q, hq, rfl⟩ := Option.map_eq_some_iff.1 h
      have := crlfPosition_bounds rest hq
      rw [List.length_cons]
      omega

theorem crlfPosition_local : ∀ (b b' : Bytes) {p : ℕ}, crlfPosition b = some p →
    b'.take (p + 2) = b.take (p + 2) → crlfPosition b' = some p
  | [], _, _, h, _ => by cases h
  | x :: rest, [], p, _, ha => by simp at ha
  | x :: rest, y :: rest', p, h, ha => by
    rw [List.take_succ_cons, List.take_succ_cons, List.cons.injEq] at ha
    obtain ⟨rfl, ha⟩ := ha
    have hhead : rest'.head? = rest.head? := by
      have := congrArg List.head? ha
      rwa [List.head?_take, List.head?_take, if_neg (by omega)] at this
    unfold crlfPosition at h ⊢
    rw [hhead]
    split_ifs at h ⊢
    · exact h
    · obtain ⟨q, hq, rfl⟩ := Option.map_eq_some_iff.1 h
      rw [crlfPosition_local rest rest' hq ha]
      rfl

section Lines

variable {b b' : Bytes} {start : ℕ}

theorem findCrlf_bounds {p : ℕ} (h : findCrlf b start = some p) :
    start ≤ p ∧ p + 2 ≤ b.length := by
  unfold findCrlf at h
  split_ifs at h with hs
  obtain ⟨q, hq, rfl⟩ := Option.map_eq_some_iff.1 h
  have := crlfPosition_bounds _ hq
  rw [List.length_drop] at this
  omega

theorem findCrlf_local {p : ℕ} (h : findCrlf b start = some p) (ha : Agree (p + 2) b b') :
    findCrlf b' start = some p := by
  have hb' := ha.le_length
  have hp := findCrlf_bounds h
  unfold findCrlf at h ⊢
  rw [if_neg (by omega)] at h ⊢
  obtain ⟨q, hq, rfl⟩ := Option.map_eq_some_iff.1 h
  have htake : (b'.drop start).take (q + 2) = (b.drop start).take (q + 2) := by
    have := congrArg (List.drop start) ha.take
    rwa [List.drop_take, List.drop_take, show q + start + 2 - start = q + 2 by omega] at this
  rw [crlfPosition_local _ _ hq htake]
  rfl

end Lines

/-! ## Readers -/

/-- The bytes that an answer rests on. -/
def extent {α : Type} (b : Bytes) : Except Failure (Option (α × ℕ)) → ℕ
  | .ok (some (_, next)) => next
  | _ => b.length

/-- A reader from `start` on: what it takes lies in the buffer, it never panics, and its answer rests
on the extent of it. -/
structure Local {α : Type} (f : Bytes → ℕ → Except Failure (Option (α × ℕ))) : Prop where
  bounds : ∀ b start x next, start ≤ b.length → f b start = .ok (some (x, next)) →
    start ≤ next ∧ next ≤ b.length
  safe : ∀ b start, start ≤ b.length → f b start ≠ .error .panic
  agree : ∀ b b' start, start ≤ b.length → f b start ≠ .ok none →
    Agree (extent b (f b start)) b b' → f b' start = f b start

theorem slice_of_le {start stop : ℕ} (h : start ≤ stop) (hs : stop ≤ b.length) :
    slice b start stop = .ok ((b.take stop).drop start) := if_pos ⟨h, hs⟩

theorem parseLine_ne_panic (line : Bytes) : parseLine line ≠ .error .panic := by
  unfold parseLine
  split_ifs
  · nofun
  · rcases parseI64 line with _ | n <;> nofun

theorem readIntegerLine_eq {start p : ℕ} (h : findCrlf b start = some p) :
    readIntegerLine b start
      = (parseLine ((b.take p).drop start)).map fun value => some (value, p + 2) := by
  have hp := findCrlf_bounds h
  unfold readIntegerLine
  simp only [h, slice_of_le hp.1 (show p ≤ b.length by omega)]
  rcases parseLine ((b.take p).drop start) with e | v <;> rfl

theorem readIntegerLine_advances {start next : ℕ} {v : Int64}
    (h : readIntegerLine b start = .ok (some (v, next))) : start + 2 ≤ next ∧ next ≤ b.length := by
  rcases hf : findCrlf b start with _ | p
  · unfold readIntegerLine at h
    rw [hf] at h
    cases h
  have hp := findCrlf_bounds hf
  rw [readIntegerLine_eq hf] at h
  rcases hl : parseLine ((b.take p).drop start) with e | w <;> rw [hl] at h <;> cases h
  omega

theorem readIntegerLine_local : Local readIntegerLine where
  bounds b start v next _ h := by
    have := readIntegerLine_advances h
    omega
  safe b start hs h := by
    rcases hf : findCrlf b start with _ | p
    · unfold readIntegerLine at h
      rw [hf] at h
      cases h
    · rw [readIntegerLine_eq hf] at h
      rcases hl : parseLine ((b.take p).drop start) with e | w <;> rw [hl] at h <;> cases h
      exact parseLine_ne_panic _ hl
  agree b b' start hs h ha := by
    rcases hf : findCrlf b start with _ | p
    · unfold readIntegerLine at h
      rw [hf] at h
      exact absurd rfl h
    have hp := findCrlf_bounds hf
    have hagree : Agree (p + 2) b b' := by
      refine ha.mono ?_
      rw [readIntegerLine_eq hf]
      rcases parseLine ((b.take p).drop start) with e | w
      · exact hp.2
      · exact le_rfl
    rw [readIntegerLine_eq hf, readIntegerLine_eq (findCrlf_local hf hagree),
      (hagree.mono (show p ≤ p + 2 by omega)).take]

theorem readPayload_eq {start len : ℕ} (h : start + len + 2 ≤ b.length) :
    readPayload b start len
      = if (b.take (start + len + 2)).drop (start + len) ≠ crlf then .error (.fault .missingCrlf)
        else .ok (some ((b.take (start + len)).drop start, start + len + 2)) := by
  unfold readPayload
  simp only [if_neg (Nat.not_lt.2 h), slice_of_le (Nat.le_add_right (start + len) 2) h,
    slice_of_le (Nat.le_add_right start len) (show start + len ≤ b.length by omega)]

theorem readPayload_local (len : ℕ) : Local fun b afterLen => readPayload b afterLen len where
  bounds b start x next hs h := by
    by_cases hle : start + len + 2 ≤ b.length
    · simp only [readPayload_eq hle] at h
      split_ifs at h
      cases h
      omega
    · unfold readPayload at h
      simp only [if_pos (Nat.not_le.1 hle)] at h
      cases h
  safe b start hs h := by
    by_cases hle : start + len + 2 ≤ b.length
    · simp only [readPayload_eq hle] at h
      split_ifs at h
      cases h
    · unfold readPayload at h
      simp only [if_pos (Nat.not_le.1 hle)] at h
      cases h
  agree b b' start hs h ha := by
    by_cases hle : start + len + 2 ≤ b.length
    · have hagree : Agree (start + len + 2) b b' := by
        refine ha.mono ?_
        simp only [readPayload_eq hle]
        split_ifs
        · exact hle
        · exact le_rfl
      simp only [readPayload_eq hle, readPayload_eq hagree.le_length, hagree.take,
        (hagree.mono (Nat.le_add_right (start + len) 2)).take]
    · unfold readPayload at h
      simp only [if_pos (Nat.not_le.1 hle)] at h
      exact absurd rfl h

/-! ## Readers in sequence -/

/-- One reader, then another that is told what the first one read. -/
def andThen {α β : Type} (f : Bytes → ℕ → Except Failure (Option (α × ℕ)))
    (g : α → Bytes → ℕ → Except Failure (Option (β × ℕ))) (b : Bytes) (start : ℕ) :
    Except Failure (Option (β × ℕ)) :=
  match f b start with
  | .error e => .error e
  | .ok none => .ok none
  | .ok (some (a, next)) => g a b next

section AndThen

variable {α β : Type} {f : Bytes → ℕ → Except Failure (Option (α × ℕ))}
  {g : α → Bytes → ℕ → Except Failure (Option (β × ℕ))}

theorem andThen_error {e : Failure} (h : f b start = .error e) :
    andThen f g b start = .error e := by
  unfold andThen
  rw [h]

theorem andThen_none (h : f b start = .ok none) :
    andThen f g b start = .ok none := by
  unfold andThen
  rw [h]

theorem andThen_some {start next : ℕ} {a : α} (h : f b start = .ok (some (a, next))) :
    andThen f g b start = g a b next := by
  unfold andThen
  rw [h]

theorem andThen_eq_some {r : β × ℕ} (h : Protocol.andThen f g b start = .ok (some r)) :
    ∃ a mid, f b start = .ok (some (a, mid)) ∧ g a b mid = .ok (some r) := by
  rcases hf : f b start with e | _ | ⟨a, mid⟩
  · rw [andThen_error hf] at h
    cases h
  · rw [andThen_none hf] at h
    cases h
  · rw [andThen_some hf] at h
    exact ⟨a, mid, rfl, h⟩

theorem Local.le_extent (hf : Local f) (hs : start ≤ b.length) :
    start ≤ extent b (f b start) := by
  rcases hr : f b start with e | _ | ⟨x, next⟩
  · exact hs
  · exact hs
  · exact (hf.bounds b start x next hs hr).1

theorem Local.andThen (hf : Local f) (hg : ∀ a, Local (g a)) : Local (Protocol.andThen f g) where
  bounds b start x next hs h := by
    rcases hr : f b start with e | _ | ⟨a, mid⟩
    · rw [andThen_error hr] at h
      cases h
    · rw [andThen_none hr] at h
      cases h
    · rw [andThen_some hr] at h
      have h₁ := hf.bounds b start a mid hs hr
      have h₂ := (hg a).bounds b mid x next h₁.2 h
      omega
  safe b start hs h := by
    rcases hr : f b start with e | _ | ⟨a, mid⟩
    · rw [andThen_error hr] at h
      cases h
      exact hf.safe b start hs hr
    · rw [andThen_none hr] at h
      cases h
    · rw [andThen_some hr] at h
      exact (hg a).safe b mid (hf.bounds b start a mid hs hr).2 h
  agree b b' start hs h ha := by
    rcases hr : f b start with e | _ | ⟨a, mid⟩
    · rw [andThen_error hr] at ha ⊢
      refine andThen_error ((hf.agree b b' start hs (by rw [hr]; nofun) ?_).trans hr)
      rw [hr]
      exact ha
    · rw [andThen_none hr] at h
      exact absurd rfl h
    · rw [andThen_some hr] at h ha ⊢
      have hmid := (hf.bounds b start a mid hs hr).2
      have hfirst : Agree (extent b (f b start)) b b' := by
        rw [hr]
        exact ha.mono ((hg a).le_extent hmid)
      rw [andThen_some ((hf.agree b b' start hs (by rw [hr]; nofun) hfirst).trans hr)]
      exact (hg a).agree b b' mid hmid h ha

end AndThen

def readBulkTail (len : Int64) (b : Bytes) (afterLen : ℕ) : Except Failure (Option (Bytes × ℕ)) :=
  if len.toInt < 0 then .error (.fault .nullBulk)
  else if (maxBulkLen : ℤ) < len.toInt then .error (.fault (.bulkTooLarge len))
  else readPayload b afterLen len.toInt.toNat

theorem readBulkTail_local (len : Int64) : Local (readBulkTail len) where
  bounds b start x next hs h := by
    unfold readBulkTail at h
    split_ifs at h
    exact (readPayload_local _).bounds b start x next hs h
  safe b start hs h := by
    unfold readBulkTail at h
    split_ifs at h
    · cases h
    · cases h
    · exact (readPayload_local _).safe b start hs h
  agree b b' start hs h ha := by
    unfold readBulkTail at h ha ⊢
    split_ifs at h ha ⊢
    · rfl
    · rfl
    · exact (readPayload_local _).agree b b' start hs h ha

/-- The marker that an array or a bulk string starts with. -/
def readMarker (marker : UInt8) (fault : UInt8 → ParseFault) (b : Bytes) (start : ℕ) :
    Except Failure (Option (Unit × ℕ)) :=
  if b.length ≤ start then .ok none
  else
    match index b start with
    | .error e => .error e
    | .ok found => if found ≠ marker then .error (.fault (fault found)) else .ok (some ((), start + 1))

theorem index_of_lt {i : ℕ} (h : i < b.length) : ∃ x, index b i = .ok x := by
  refine ⟨b.get ⟨i, h⟩, ?_⟩
  unfold index
  rw [List.getElem?_eq_getElem h]
  rfl

section Marker

variable (marker : UInt8) (fault : UInt8 → ParseFault) {b : Bytes} {start : ℕ}

theorem readMarker_none (h : b.length ≤ start) : readMarker marker fault b start = .ok none :=
  if_pos h

theorem readMarker_of_lt (h : start < b.length) :
    ∃ found, index b start = .ok found ∧ readMarker marker fault b start
      = if found ≠ marker then .error (.fault (fault found)) else .ok (some ((), start + 1)) := by
  obtain ⟨found, hfound⟩ := index_of_lt h
  refine ⟨found, hfound, ?_⟩
  unfold readMarker
  rw [if_neg (Nat.not_le.2 h), hfound]

end Marker

theorem readMarker_local (marker : UInt8) (fault : UInt8 → ParseFault) :
    Local (readMarker marker fault) where
  bounds b start x next hs h := by
    rcases Nat.lt_or_ge start b.length with hlt | hle
    · obtain ⟨found, -, heq⟩ := readMarker_of_lt marker fault hlt
      rw [heq] at h
      split_ifs at h
      cases h
      omega
    · rw [readMarker_none _ _ hle] at h
      cases h
  safe b start hs h := by
    rcases Nat.lt_or_ge start b.length with hlt | hle
    · obtain ⟨found, -, heq⟩ := readMarker_of_lt marker fault hlt
      rw [heq] at h
      split_ifs at h
      cases h
    · rw [readMarker_none _ _ hle] at h
      cases h
  agree b b' start hs h ha := by
    rcases Nat.lt_or_ge start b.length with hlt | hle
    · obtain ⟨found, hfound, heq⟩ := readMarker_of_lt marker fault hlt
      have hagree : Agree (start + 1) b b' := by
        refine ha.mono ?_
        rw [heq]
        split_ifs
        · exact hlt
        · exact le_rfl
      obtain ⟨found', hfound', heq'⟩ :=
        readMarker_of_lt marker fault hagree.le_length
      rw [index_local hagree (Nat.lt_succ_self start), hfound] at hfound'
      cases hfound'
      rw [heq, heq']
    · rw [readMarker_none _ _ hle] at h
      exact absurd rfl h

theorem readBulkString_eq : readBulkString
    = andThen (readMarker 36 .expectedBulk) fun _ => andThen readIntegerLine readBulkTail := by
  funext b start
  unfold readBulkString andThen readMarker
  split_ifs
  · rfl
  rcases index b start with e | marker
  · rfl
  simp only []
  split_ifs
  · rfl
  simp only []
  rcases readIntegerLine b (start + 1) with e | _ | ⟨len, afterLen⟩ <;> rfl

theorem readBulkString_local : Local readBulkString := by
  rw [readBulkString_eq]
  exact (readMarker_local _ _).andThen fun _ => readIntegerLine_local.andThen readBulkTail_local

theorem pure_local {α : Type} (x : α) : Local fun _ start => .ok (some (x, start)) where
  bounds b start y next hs h := by
    cases h
    exact ⟨le_rfl, hs⟩
  safe b start _ h := by cases h
  agree _ _ _ _ _ _ := rfl

theorem readParts_succ (count : ℕ) :
    (fun b start => readParts b (count + 1) start)
      = andThen readBulkString fun part => andThen (fun b start => readParts b count start)
          fun parts _ start => .ok (some (part :: parts, start)) := by
  funext b start
  unfold andThen
  rw [readParts]
  rcases readBulkString b start with e | _ | ⟨part, next⟩
  · rfl
  · rfl
  simp only []
  rcases readParts b count next with e | _ | ⟨parts, cursor⟩ <;> rfl

theorem readParts_local : ∀ count, Local fun b start => readParts b count start
  | 0 => pure_local []
  | count + 1 => by
    rw [readParts_succ]
    exact readBulkString_local.andThen fun part => (readParts_local count).andThen fun parts =>
      pure_local (part :: parts)

/-! ## Requests -/

/-- The elements of an array of `count`. -/
def readElements (count : Int64) (b : Bytes) (cursor : ℕ) : Except Failure (Option (List Bytes × ℕ)) :=
  if count.toInt < 1 then .error (.fault (.emptyArray count))
  else if maxArrayElements < count.toInt.toNat then
    .error (.fault (.arrayTooLarge count.toInt.toNat))
  else readParts b count.toInt.toNat cursor

theorem readElements_local (count : Int64) : Local (readElements count) where
  bounds b start x next hs h := by
    unfold readElements at h
    split_ifs at h
    exact (readParts_local _).bounds b start x next hs h
  safe b start hs h := by
    unfold readElements at h
    split_ifs at h
    · cases h
    · cases h
    · exact (readParts_local _).safe b start hs h
  agree b b' start hs h ha := by
    unfold readElements at h ha ⊢
    split_ifs at h ha ⊢
    · rfl
    · rfl
    · exact (readParts_local _).agree b b' start hs h ha

/-- The array of a request, before it is made a command. -/
def readFrame : Bytes → ℕ → Except Failure (Option (List Bytes × ℕ)) :=
  andThen (readMarker 42 .expectedArray) fun _ => andThen readIntegerLine readElements

theorem readFrame_local : Local readFrame :=
  (readMarker_local _ _).andThen fun _ => readIntegerLine_local.andThen readElements_local

def frameOf (float : FloatOps) : Except Failure (Option (List Bytes × ℕ)) → Except Failure FrameParse
  | .error e => .error e
  | .ok none => .ok .incomplete
  | .ok (some (parts, cursor)) => finishFrame float parts cursor

theorem parseFrame_eq (float : FloatOps) (b : Bytes) :
    parseFrame float b = frameOf float (readFrame b 0) := by
  rcases b with _ | ⟨x, rest⟩
  · rfl
  unfold parseFrame readFrame andThen readMarker
  rw [if_neg (by simp), if_neg (by simp)]
  rcases index (x :: rest) 0 with e | first
  · rfl
  simp only []
  split_ifs
  · rfl
  simp only []
  rcases readIntegerLine (x :: rest) 1 with e | _ | ⟨count, cursor⟩
  · rfl
  · rfl
  simp only []
  unfold readArray readElements
  split_ifs
  · rfl
  · rfl
  rcases readParts (x :: rest) count.toInt.toNat cursor with e | _ | ⟨parts, cursor⟩ <;> rfl

theorem length_readParts (b : Bytes) : ∀ (count cursor : ℕ) {parts : List Bytes} {next : ℕ},
    readParts b count cursor = .ok (some (parts, next)) → parts.length = count
  | 0, _, _, _, h => by
    cases h
    rfl
  | count + 1, cursor, parts, next, h => by
    rw [readParts] at h
    rcases hb : readBulkString b cursor with e | _ | ⟨part, mid⟩ <;> simp only [hb] at h
    · cases h
    · cases h
    rcases hr : readParts b count mid with e | _ | ⟨parts', next'⟩ <;> simp only [hr] at h
    · cases h
    · cases h
    cases h
    rw [List.length_cons, length_readParts b count mid hr]

theorem readFrame_elements {parts : List Bytes} {next : ℕ}
    (h : readFrame b 0 = .ok (some (parts, next))) :
    ∃ count cursor, 0 < cursor ∧ cursor ≤ b.length ∧
      readElements count b cursor = .ok (some (parts, next)) := by
  obtain ⟨u, one, hm, h⟩ := andThen_eq_some h
  obtain ⟨count, cursor, hc, h⟩ := andThen_eq_some h
  have hone := (readMarker_local _ _).bounds b 0 u one (Nat.zero_le _) hm
  have hcursor := readIntegerLine_advances hc
  exact ⟨count, cursor, by omega, hcursor.2, h⟩

/-- A request has a name, as many elements as it says, and more than its first byte. -/
theorem readFrame_some {parts : List Bytes} {next : ℕ}
    (h : readFrame b 0 = .ok (some (parts, next))) :
    parts ≠ [] ∧ parts.length ≤ maxArrayElements ∧ 0 < next ∧ next ≤ b.length := by
  have hle := (readFrame_local.bounds b 0 parts next (Nat.zero_le _) h).2
  obtain ⟨count, cursor, hpos, hcursor, he⟩ := readFrame_elements h
  have hnext := (readElements_local count).bounds b cursor parts next hcursor he
  unfold readElements at he
  split_ifs at he with hone hmax
  have hlen := length_readParts b _ _ he
  refine ⟨?_, by omega, by omega, hle⟩
  rintro rfl
  rw [List.length_nil] at hlen
  omega

def FrameParse.consumed : FrameParse → ℕ
  | .complete _ n => n
  | .invalid _ n => n
  | .incomplete => 0

section Frames

variable {float : FloatOps} {b : Bytes}

theorem finishFrame_cons (float : FloatOps) (name : Bytes) (args : List Bytes) (cursor : ℕ) :
    ∃ p, finishFrame float (name :: args) cursor = .ok p ∧ p ≠ .incomplete ∧ p.consumed = cursor := by
  unfold finishFrame
  rcases hb : buildCommand float name args with e | c <;> simp only [hb]
  · exact ⟨.invalid e cursor, rfl, nofun, rfl⟩
  · exact ⟨.complete c cursor, rfl, nofun, rfl⟩

/-- No index and no slice of the parser is out of range. -/
theorem parseFrame_ne_panic (float : FloatOps) (b : Bytes) : parseFrame float b ≠ .error .panic := by
  rw [parseFrame_eq]
  rcases hr : readFrame b 0 with e | _ | ⟨parts, next⟩
  · intro h
    cases h
    exact readFrame_local.safe b 0 (Nat.zero_le _) hr
  · nofun
  · obtain ⟨hne, -⟩ := readFrame_some hr
    rcases parts with _ | ⟨name, args⟩
    · exact absurd rfl hne
    · obtain ⟨p, hp, -⟩ := finishFrame_cons float name args next
      intro h
      rw [frameOf, hp] at h
      cases h

theorem readFrame_ne_none (h : parseFrame float b ≠ .ok .incomplete) : readFrame b 0 ≠ .ok none := by
  intro hr
  rw [parseFrame_eq, hr] at h
  exact h rfl

theorem extent_le (b : Bytes) : extent b (readFrame b 0) ≤ b.length := by
  rcases h : readFrame b 0 with e | _ | ⟨parts, next⟩
  · exact le_rfl
  · exact le_rfl
  · exact (readFrame_some h).2.2.2

/-- An answer other than a call for more input is the answer for every longer buffer. -/
theorem parseFrame_append (h : parseFrame float b ≠ .ok .incomplete) (c : Bytes) :
    parseFrame float (b ++ c) = parseFrame float b := by
  have hagree := Agree.append (extent_le b) c
  rw [parseFrame_eq, parseFrame_eq,
    readFrame_local.agree b (b ++ c) 0 (Nat.zero_le _) (readFrame_ne_none h) hagree]

/-- A request takes at least one byte of the buffer, and is decided by the bytes it takes. -/
theorem parseFrame_take {p : FrameParse} (h : parseFrame float b = .ok p) (hp : p ≠ .incomplete) :
    0 < p.consumed ∧ p.consumed ≤ b.length ∧ parseFrame float (b.take p.consumed) = .ok p := by
  rcases hr : readFrame b 0 with e | _ | ⟨parts, next⟩
  · rw [parseFrame_eq, hr] at h
    cases h
  · rw [parseFrame_eq, hr] at h
    cases h
    exact absurd rfl hp
  have hsome := readFrame_some hr
  have hnext : p.consumed = next := by
    rw [parseFrame_eq, hr] at h
    rcases parts with _ | ⟨name, args⟩
    · cases h
    · obtain ⟨p', hp', -, hc⟩ := finishFrame_cons float name args next
      rw [frameOf, hp'] at h
      cases h
      exact hc
  rw [hnext]
  refine ⟨hsome.2.2.1, hsome.2.2.2, ?_⟩
  have hagree : Agree (extent b (readFrame b 0)) b (b.take next) := by
    rw [hr]
    exact Agree.of_take hsome.2.2.2
  rw [parseFrame_eq, readFrame_local.agree b _ 0 (Nat.zero_le _) (by rw [hr]; nofun) hagree,
    ← parseFrame_eq, h]

end Frames

/-! ## What a command is built from -/

theorem readPayload_length {b payload : Bytes} {start len next : ℕ}
    (h : readPayload b start len = .ok (some (payload, next))) : payload.length = len := by
  by_cases hlen : b.length < start + len + 2
  · unfold readPayload at h
    simp only [if_pos hlen] at h
    cases h
  · rw [readPayload_eq (by omega)] at h
    split_ifs at h
    cases h
    simp only [List.length_drop, List.length_take]
    omega

theorem readBulkString_length {b part : Bytes} {start next : ℕ}
    (h : readBulkString b start = .ok (some (part, next))) : part.length ≤ maxBulkLen := by
  rw [readBulkString_eq] at h
  obtain ⟨u, one, -, h⟩ := andThen_eq_some h
  obtain ⟨len, afterLen, -, h⟩ := andThen_eq_some h
  unfold readBulkTail at h
  split_ifs at h with hneg hmax
  rw [readPayload_length h]
  omega

theorem length_le_of_mem_readParts (b : Bytes) : ∀ (count cursor : ℕ) {parts : List Bytes}
    {next : ℕ}, readParts b count cursor = .ok (some (parts, next)) →
      ∀ part ∈ parts, part.length ≤ maxBulkLen
  | 0, _, _, _, h => by
    cases h
    simp
  | count + 1, cursor, parts, next, h => by
    rw [readParts] at h
    rcases hb : readBulkString b cursor with e | _ | ⟨part, mid⟩ <;> simp only [hb] at h
    · cases h
    · cases h
    rcases hr : readParts b count mid with e | _ | ⟨parts', next'⟩ <;> simp only [hr] at h
    · cases h
    · cases h
    cases h
    intro x hx
    rcases List.mem_cons.1 hx with rfl | hx
    · exact readBulkString_length hb
    · exact length_le_of_mem_readParts b count mid hr x hx

theorem readFrame_parts {parts : List Bytes} {next : ℕ}
    (h : readFrame b 0 = .ok (some (parts, next))) : ∀ part ∈ parts, part.length ≤ maxBulkLen := by
  obtain ⟨count, cursor, -, -, he⟩ := readFrame_elements h
  unfold readElements at he
  split_ifs at he
  exact length_le_of_mem_readParts b _ _ he

/-- A command comes from a name and arguments within the limits of the parser. -/
theorem Produced.build {command : Command} (h : Produced float command) :
    ∃ name args, buildCommand float name args = .ok command ∧ args.length < maxArrayElements ∧
      ∀ a ∈ args, a.length ≤ maxBulkLen := by
  obtain ⟨b, consumed, h⟩ := h
  rw [parseFrame_eq] at h
  rcases hr : readFrame b 0 with e | _ | ⟨parts, next⟩
  · rw [hr] at h
    cases h
  · rw [hr] at h
    cases h
  obtain ⟨hne, hlen, -⟩ := readFrame_some hr
  have hparts : ∀ part ∈ parts, part.length ≤ maxBulkLen := readFrame_parts hr
  rw [hr, frameOf] at h
  rcases parts with _ | ⟨name, args⟩
  · exact absurd rfl hne
  unfold finishFrame at h
  rcases hb : buildCommand float name args with e | c <;> simp only [hb] at h
  · cases h
  cases h
  exact ⟨name, args, hb, by simpa using hlen, fun a ha => hparts a (.tail _ ha)⟩

theorem map_eq_ok {ε α β : Type} {x : Except ε α} {f : α → β} {b : β} (h : x.map f = .ok b) :
    ∃ a, x = .ok a ∧ f a = b := by
  rcases x with e | a
  · cases h
  · cases h
    exact ⟨a, rfl, rfl⟩

theorem noArgs_eq_ok {c c' : Command} (h : noArgs cmd args c = .ok c') : args = [] ∧ c = c' := by
  unfold noArgs at h
  split at h
  · cases h
    exact ⟨rfl, rfl⟩
  · cases h

theorem oneArg_eq_ok {f : Bytes → Command}
    (h : oneArg cmd args f = .ok c) : ∃ a, args = [a] ∧ f a = c := by
  unfold oneArg at h
  split at h
  · cases h
    exact ⟨_, rfl, rfl⟩
  · cases h

theorem twoArgs_eq_ok {f : Bytes → Bytes → Except CommandError Command}
    (h : twoArgs cmd args f = .ok c) : ∃ a b, args = [a, b] ∧ f a b = .ok c := by
  unfold twoArgs at h
  split at h
  · exact ⟨_, _, rfl, h⟩
  · cases h

theorem someArgs_eq_ok {f : List Bytes → Command}
    (h : someArgs cmd args f = .ok c) : args ≠ [] ∧ f args = c := by
  unfold someArgs at h
  split at h
  · cases h
  · cases h
    exact ⟨by assumption, rfl⟩

/-- What the arguments say about the command that was built from them. -/
def Command.Shape (args : List Bytes) : Command → Prop
  | .mSet pairs => pairs = pairUp args
  | .mGet keys | .del keys | .existsMany keys => keys = args
  | .append _ value => value ∈ args
  | .config sub rest =>
    sub = text "GET" ∧ (∃ p, rest = [p]) ∨ sub = text "SET" ∧ ∃ p v, rest = [p, v]
  | _ => True

/-- What is known of a command that was built from arguments: it is normalised, with sub-commands in
upper case and optional arguments checked. -/
def Command.Canonical : Command → Prop
  | .mSet pairs => pairs ≠ []
  | .mGet keys | .del keys | .existsMany keys => keys ≠ []
  | .config sub args =>
    sub = text "GET" ∧ (∃ p, args = [p]) ∨ sub = text "SET" ∧ ∃ p v, args = [p, v]
  | .slowLog sub args =>
    sub = text "GET" ∧ args.length ≤ 1 ∨ (sub = text "LEN" ∨ sub = text "RESET") ∧ args = []
  | .hello version => version = none ∨ version = some 2 ∨ version = some 3
  | _ => True

theorem pairUp_ne_nil (hne : args ≠ []) (heven : args.length % 2 = 0) :
    pairUp args ≠ [] := by
  rcases args with _ | ⟨k, _ | ⟨v, rest⟩⟩
  · exact absurd rfl hne
  · simp at heven
  · simp [pairUp]

theorem buildConfig_spec (h : buildConfig args = .ok c) :
    c.Shape args ∧ c.Canonical := by
  unfold buildConfig at h
  split at h
  · cases h
  split_ifs at h
  · obtain ⟨p, -, rfl⟩ := oneArg_eq_ok h
    exact ⟨.inl ⟨rfl, p, rfl⟩, .inl ⟨rfl, p, rfl⟩⟩
  · obtain ⟨p, v, -, h⟩ := twoArgs_eq_ok h
    cases h
    exact ⟨.inr ⟨rfl, p, v, rfl⟩, .inr ⟨rfl, p, v, rfl⟩⟩

theorem buildSlowLog_spec (h : buildSlowLog args = .ok c) :
    c.Shape args ∧ c.Canonical := by
  unfold buildSlowLog at h
  split at h
  · cases h
  split_ifs at h
  · split at h
    · cases h
      exact ⟨trivial, .inl ⟨rfl, by simp⟩⟩
    · cases h
      exact ⟨trivial, .inl ⟨rfl, by simp⟩⟩
    · cases h
  · obtain ⟨-, rfl⟩ := noArgs_eq_ok h
    exact ⟨trivial, .inr ⟨.inl rfl, rfl⟩⟩
  · obtain ⟨-, rfl⟩ := noArgs_eq_ok h
    exact ⟨trivial, .inr ⟨.inr rfl, rfl⟩⟩

theorem buildHello_spec (h : buildHello args = .ok c) :
    c.Shape args ∧ c.Canonical := by
  unfold buildHello at h
  split at h
  · cases h
    exact ⟨trivial, .inl rfl⟩
  · split_ifs at h
    · cases h
      exact ⟨trivial, .inr (.inl rfl)⟩
    · cases h
      exact ⟨trivial, .inr (.inr rfl)⟩
  · cases h

theorem buildArgs_spec {v : Verb}
    (h : buildArgs float args v = .ok c) : c.Shape args ∧ c.Canonical := by
  cases v <;> simp only [buildArgs] at h
  case mSet =>
    split_ifs at h with hargs
    cases h
    rw [not_or, not_not] at hargs
    exact ⟨rfl, pairUp_ne_nil hargs.1 hargs.2⟩
  case mGet | del | existsMany =>
    obtain ⟨hne, rfl⟩ := someArgs_eq_ok h
    exact ⟨rfl, hne⟩
  case append =>
    obtain ⟨key, value, rfl, h⟩ := twoArgs_eq_ok h
    cases h
    exact ⟨by simp [Command.Shape], trivial⟩
  case config => exact buildConfig_spec h
  case slowLog => exact buildSlowLog_spec h
  case hello => exact buildHello_spec h
  case set | setNx =>
    obtain ⟨key, value, -, h⟩ := twoArgs_eq_ok h
    cases h
    exact ⟨trivial, trivial⟩
  case incrBy | decrBy | incrByFloat | expire | pExpire | pExpireAt =>
    obtain ⟨key, raw, -, h⟩ := twoArgs_eq_ok h
    obtain ⟨n, -, rfl⟩ := map_eq_ok h
    exact ⟨trivial, trivial⟩
  case incr | decr | get | strLen | persist | ttl | pTtl | auth =>
    obtain ⟨a, -, rfl⟩ := oneArg_eq_ok h
    exact ⟨trivial, trivial⟩
  case dbSize | flushDb | rewriteAof | monitor =>
    obtain ⟨-, rfl⟩ := noArgs_eq_ok h
    exact ⟨trivial, trivial⟩
  case ping | info =>
    split at h
    · cases h
      exact ⟨trivial, trivial⟩
    · cases h
      exact ⟨trivial, trivial⟩
    · cases h
  case memory =>
    unfold buildMemory at h
    split at h
    · split_ifs at h
      cases h
      exact ⟨trivial, trivial⟩
    · cases h

theorem buildCommand_spec {name : Bytes}
    (h : buildCommand float name args = .ok c) : c.Shape args ∧ c.Canonical := by
  unfold buildCommand at h
  split at h
  · exact buildArgs_spec h
  · cases h

theorem Produced.shape {command : Command} (h : Produced float command) :
    ∃ args, command.Shape args ∧ args.length < maxArrayElements ∧
      ∀ a ∈ args, a.length ≤ maxBulkLen := by
  obtain ⟨name, args, hb, hargs⟩ := h.build
  exact ⟨args, (buildCommand_spec hb).1, hargs⟩

end FerrumKv.Protocol
