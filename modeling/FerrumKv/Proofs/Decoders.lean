import FerrumKv.Proofs.Parser
import FerrumKv.Proofs.Recovery

/-!
# Two decoders of one format

A request is sliced out of the buffer received so far, a record of the log is read byte by byte. Both
read one format (`IsFrame`): the reader of the log reads what has it (`readRecord_iff`), the parser
what has it within its limits (`readFrame_iff`), so they agree (`decoders_agree`). Each of their parts
is characterised by the bytes it reads (`Reader.Reads`, `Slices`), and parts compose in the same way.
-/

namespace FerrumKv

def IsLine (v : Int64) (l : Bytes) : Prop := ∃ number, parseI64 number = some v ∧ l = number ++ crlf

def IsBulk (part l : Bytes) : Prop :=
  ∃ v line, IsLine v line ∧ v.toInt = part.length ∧ l = 36 :: (line ++ (part ++ crlf))

def AreBulks : List Bytes → Bytes → Prop
  | [], l => l = []
  | part :: parts, l => ∃ l₁ l₂, IsBulk part l₁ ∧ AreBulks parts l₂ ∧ l = l₁ ++ l₂

/-- The bytes of an array of bulk strings; numbers may have a sign and leading zeros. -/
def IsFrame (parts : List Bytes) (l : Bytes) : Prop :=
  ∃ v line elements, IsLine v line ∧ v.toInt = parts.length ∧ AreBulks parts elements
    ∧ l = 42 :: (line ++ elements)

/-- Bytes of one thing, then bytes of another that may depend on it. -/
def Then {α β : Type} (L : α → Bytes → Prop) (M : α → β → Bytes → Prop) (y : β) (l : Bytes) : Prop :=
  ∃ x l₁ l₂, L x l₁ ∧ M x y l₂ ∧ l = l₁ ++ l₂

theorem parseI64_bounds {line : Bytes} {v : Int64} (h : parseI64 line = some v) :
    ∀ b ∈ line, 43 ≤ b.toNat ∧ b.toNat ≤ 57 := by
  obtain ⟨z, hz, -⟩ := Option.bind_eq_some_iff.1 h
  exact Decimal.bounds_of_toInt? hz

theorem not_mem_of_parseI64 {line : Bytes} {v : Int64} (h : parseI64 line = some v) :
    (13 : UInt8) ∉ line := by
  intro hmem
  have := parseI64_bounds h 13 hmem
  simp at this

namespace Reader

/-- What the reader reads are the bytes of `L`. -/
def Reads {α : Type} (f : Reader → Except ReadError α × Reader) (L : α → Bytes → Prop) : Prop :=
  ∀ r a r', f r = (.ok a, r') ↔
    ∃ l, L a l ∧ r.rest = l ++ r'.rest ∧ r'.consumed = r.consumed + l.length

section Reads

variable {α β : Type} {f : Reader → Except ReadError α × Reader}
  {g : α → Reader → Except ReadError β × Reader} {L L' : α → Bytes → Prop}
  {M : α → β → Bytes → Prop}

theorem Reads.congr (h : Reads f L) (hL : ∀ a l, L a l ↔ L' a l) : Reads f L' := by
  intro r a r'
  rw [h r a r']
  exact exists_congr fun l => and_congr_left' (hL a l)

theorem Reads.andThen (hf : Reads f L) (hg : ∀ a, Reads (g a) (M a)) :
    Reads (Reader.andThen f g) (Then L M) := by
  intro r b r'
  constructor
  · intro h
    rcases hr : f r with ⟨e | a, mid⟩
    · rw [andThen_error hr] at h
      cases h
    · rw [andThen_ok hr] at h
      obtain ⟨l₁, hl₁, hrest₁, hcount₁⟩ := (hf r a mid).1 hr
      obtain ⟨l₂, hl₂, hrest₂, hcount₂⟩ := (hg a mid b r').1 h
      refine ⟨l₁ ++ l₂, ⟨a, l₁, l₂, hl₁, hl₂, rfl⟩, ?_, ?_⟩
      · rw [hrest₁, hrest₂, List.append_assoc]
      · rw [hcount₂, hcount₁, List.length_append, Nat.add_assoc]
  · rintro ⟨l, ⟨a, l₁, l₂, hl₁, hl₂, rfl⟩, hrest, hcount⟩
    rw [List.append_assoc] at hrest
    rw [List.length_append, ← Nat.add_assoc] at hcount
    have hr := (hf r a ⟨l₂ ++ r'.rest, r.consumed + l₁.length⟩).2 ⟨l₁, hl₁, hrest, rfl⟩
    rw [andThen_ok hr]
    exact (hg a _ b r').2 ⟨l₂, hl₂, rfl, hcount⟩

theorem Reads.unless {p : Prop} [Decidable p] (e : Reader → ReadError) (hf : Reads f L) :
    Reads (fun r => if p then (.error (e r), r) else f r) fun a l => ¬p ∧ L a l := by
  by_cases hp : p
  · intro r a r'
    simp [hp]
  · simpa only [hp, if_false, not_false_eq_true, true_and] using hf

theorem reads_pure (x : α) : Reads (fun r => (.ok x, r)) fun a l => a = x ∧ l = [] := by
  intro r a r'
  constructor
  · intro h
    cases h
    exact ⟨[], ⟨rfl, rfl⟩, rfl, rfl⟩
  · rintro ⟨l, ⟨rfl, rfl⟩, hrest, hcount⟩
    rcases r with ⟨rest, n⟩
    rcases r' with ⟨rest', n'⟩
    simp only [List.nil_append, List.length_nil, Nat.add_zero] at hrest hcount
    rw [hrest, hcount]

end Reads

theorem reads_expectByte : Reads expectByte fun b l => l = [b] := by
  rintro ⟨rest, n⟩ b ⟨rest', n'⟩
  unfold expectByte
  rcases rest with _ | ⟨x, rest⟩
  · simp
  · simp only [Prod.mk.injEq, Except.ok.injEq, Reader.mk.injEq, exists_eq_left,
      List.singleton_append, List.cons.injEq, List.length_singleton]
    constructor
    · rintro ⟨rfl, rfl, rfl⟩
      exact ⟨⟨rfl, rfl⟩, rfl⟩
    · rintro ⟨⟨rfl, rfl⟩, rfl⟩
      exact ⟨rfl, rfl, rfl⟩

theorem reads_readExact (len : ℕ) :
    Reads (fun r => r.readExact len) fun buf l => buf.length = len ∧ l = buf := by
  rintro ⟨rest, n⟩ buf ⟨rest', n'⟩
  constructor
  · intro h
    simp only [readExact] at h
    split_ifs at h with hlt
    · cases h
    · cases h
      have hlen : (rest.take len).length = len := List.length_take_of_le (by omega)
      exact ⟨rest.take len, ⟨hlen, rfl⟩, (List.take_append_drop _ _).symm, by rw [hlen]⟩
  · rintro ⟨l, ⟨rfl, rfl⟩, hrest, hcount⟩
    simp only at hrest hcount
    subst hrest hcount
    exact readExact_append l rest' n

theorem readLine_ok : ∀ (rest : Bytes) (n : ℕ) (acc : Bytes) {line : Bytes} {r : Reader},
    readLine rest n acc = (.ok line, r) →
      ∃ l, 13 ∉ l ∧ line = acc ++ l ∧ rest = l ++ 13 :: r.rest
  | [], _, _, _, _, h => by cases h
  | b :: rest, n, acc, line, r, h => by
    rw [readLine] at h
    split_ifs at h with hb
    · cases h
      exact ⟨[], by simp, by simp, by simp [hb]⟩
    · obtain ⟨l, hl, hline, hrest⟩ := readLine_ok rest (n + 1) (acc ++ [b]) h
      refine ⟨b :: l, ?_, by simpa using hline, by simp [hrest]⟩
      simpa only [List.mem_cons, not_or] using ⟨Ne.symm hb, hl⟩

theorem reads_readLine : Reads (fun r => readLine r.rest r.consumed [])
    fun line l => 13 ∉ line ∧ l = line ++ [13] := by
  rintro ⟨rest, n⟩ line ⟨rest', n'⟩
  constructor
  · intro h
    obtain ⟨l, hl, hline, hrest⟩ := readLine_ok rest n [] h
    rw [List.nil_append] at hline
    subst hline
    simp only at hrest h
    rw [hrest, readLine_append _ _ _ _ hl] at h
    cases h
    exact ⟨line ++ [13], ⟨hl, rfl⟩, by simp [hrest], by simp; omega⟩
  · rintro ⟨l, ⟨hl, rfl⟩, hrest, hcount⟩
    simp only [List.append_assoc, List.singleton_append] at hrest
    simp only [List.length_append, List.length_singleton] at hcount
    simp only [hrest, readLine_append _ _ _ _ hl, hcount, List.nil_append, ← Nat.add_assoc]

theorem reads_number (number : Bytes) : Reads (fun r => match parseI64 number with
      | some n => (.ok n.toInt, r)
      | none => (.error (.malformed .badInteger r.consumed), r))
    fun z l => ∃ v, parseI64 number = some v ∧ v.toInt = z ∧ l = [] := by
  rcases parseI64 number with _ | v
  · intro r a r'
    simp
  · refine (reads_pure v.toInt).congr fun z l => ?_
    simp [eq_comm]

theorem reads_readInteger : Reads readInteger fun z l => ∃ v, IsLine v l ∧ v.toInt = z := by
  rw [readInteger_eq]
  refine (reads_readLine.andThen fun number => reads_expectByte.andThen fun lf =>
    (reads_number number).unless fun r => .malformed .missingLf r.consumed).congr fun z l => ?_
  constructor
  · rintro ⟨number, -, -, ⟨-, rfl⟩, ⟨lf, -, -, rfl, ⟨hlf, v, hv, rfl, rfl⟩, rfl⟩, rfl⟩
    exact ⟨v, ⟨number, hv, by simp [crlf, not_not.1 hlf]⟩, rfl⟩
  · rintro ⟨v, ⟨number, hv, rfl⟩, rfl⟩
    exact ⟨number, _, _, ⟨not_mem_of_parseI64 hv, rfl⟩,
      ⟨10, _, _, rfl, ⟨by simp, v, hv, rfl, rfl⟩, rfl⟩, by simp [crlf]⟩

theorem reads_readBulk : Reads readBulk IsBulk := by
  rw [readBulk_eq]
  refine (reads_expectByte.andThen fun marker => .unless (fun r => .malformed (.expectedDollar marker)
    r.consumed) (reads_readInteger.andThen fun len => .unless (fun r => .malformed
      (.negativeBulkLength len) r.consumed) ((reads_readExact len.toNat).andThen fun buf =>
        reads_expectByte.andThen fun cr => reads_expectByte.andThen fun lf => .unless
          (fun r => .malformed .missingCrlf r.consumed) (reads_pure buf)))).congr fun part l => ?_
  constructor
  · rintro ⟨marker, -, -, rfl, ⟨hmarker, len, line, -, ⟨v, hv, rfl⟩, ⟨hpos, buf, _, -, ⟨hlen, rfl⟩,
      ⟨cr, -, -, rfl, ⟨lf, -, -, rfl, ⟨hcrlf, rfl, rfl⟩, rfl⟩, rfl⟩, rfl⟩, rfl⟩, rfl⟩
    rw [not_or, not_not, not_not] at hcrlf
    refine ⟨v, line, hv, by omega, ?_⟩
    simp [crlf, not_not.1 hmarker, hcrlf.1, hcrlf.2]
  · rintro ⟨v, line, hv, hlen, rfl⟩
    refine ⟨36, _, _, rfl, ⟨by simp, v.toInt, line, _, ⟨v, hv, rfl⟩, ⟨by omega, part, _, _,
      ⟨by omega, rfl⟩, ⟨13, _, _, rfl, ⟨10, _, _, rfl, ⟨by simp, rfl, rfl⟩, rfl⟩, rfl⟩, rfl⟩, rfl⟩, ?_⟩
    simp [crlf]

theorem reads_readBulks : ∀ n, Reads (readBulks n) fun parts l => parts.length = n ∧ AreBulks parts l
  | 0 => (reads_pure []).congr fun parts l => by
    rcases parts with _ | ⟨part, parts⟩ <;> simp [AreBulks]
  | n + 1 => by
    rw [readBulks_succ]
    refine (reads_readBulk.andThen fun part => (reads_readBulks n).andThen fun parts =>
      reads_pure (part :: parts)).congr fun all l => ?_
    constructor
    · rintro ⟨part, l₁, -, hpart, ⟨parts, l₂, -, ⟨hlen, hparts⟩, ⟨rfl, rfl⟩, rfl⟩, rfl⟩
      exact ⟨by simp [hlen], l₁, l₂, hpart, hparts, by simp⟩
    · rintro ⟨hlen, hall⟩
      rcases all with _ | ⟨part, parts⟩
      · cases hlen
      obtain ⟨l₁, l₂, hpart, hparts, rfl⟩ := hall
      exact ⟨part, l₁, l₂, hpart, ⟨parts, l₂, [], ⟨by simpa using hlen, hparts⟩, ⟨rfl, rfl⟩, by simp⟩,
        rfl⟩

theorem reads_readBody (first : UInt8) : Reads (readBody first) fun parts l =>
    first = 42 ∧ ∃ parts', parts = some parts' ∧ IsFrame parts' (42 :: l) := by
  refine (Reads.unless (fun r => .malformed (.expectedStar first) r.consumed)
    (reads_readInteger.andThen fun len => .unless (fun r => .malformed
      (.negativeArrayLength len) r.consumed) ((reads_readBulks len.toNat).andThen fun parts =>
        reads_pure (some parts)))).congr fun parts l => ?_
  rw [ne_eq, not_not]
  refine and_congr_right fun _ => ?_
  constructor
  · rintro ⟨len, line, _, ⟨v, hv, rfl⟩, ⟨hpos, parts', elements, _, ⟨hlen, helems⟩, ⟨rfl, rfl⟩, rfl⟩,
      rfl⟩
    exact ⟨parts', rfl, v, line, elements, hv, by omega, helems, by simp⟩
  · rintro ⟨parts', rfl, v, line, elements, hv, hlen, helems, hl⟩
    rw [List.cons.injEq] at hl
    exact ⟨v.toInt, line, elements, ⟨v, hv, rfl⟩, ⟨by omega, parts', elements, [], ⟨by omega, helems⟩,
      ⟨rfl, rfl⟩, by simp⟩, hl.2⟩

end Reader

/-- A record is read from its bytes and from no others. -/
theorem readRecord_iff {b rest : Bytes} {parts : List Bytes} :
    readRecord b = (.ok (some parts), rest) ↔ ∃ l, IsFrame parts l ∧ b = l ++ rest := by
  rcases b with _ | ⟨first, b⟩
  · simp [readRecord, IsFrame]
  rw [readRecord_cons]
  rcases hr : Reader.readBody first ⟨b, 1⟩ with ⟨res, r'⟩
  constructor
  · intro h
    simp only [Prod.mk.injEq] at h
    rw [h.1] at hr
    obtain ⟨l, ⟨rfl, _, hparts, hframe⟩, hrest, -⟩ := (Reader.reads_readBody first _ _ _).1 hr
    rw [Option.some.injEq] at hparts
    subst hparts
    exact ⟨42 :: l, hframe, by rw [← h.2]; simpa using hrest⟩
  · rintro ⟨l, hframe, hb⟩
    have hstar : ∃ l', l = 42 :: l' := by
      obtain ⟨v, line, elements, -, -, -, rfl⟩ := hframe
      exact ⟨_, rfl⟩
    obtain ⟨l', rfl⟩ := hstar
    rw [List.cons_append, List.cons.injEq] at hb
    have hread := (Reader.reads_readBody first ⟨b, 1⟩ (some parts) ⟨rest, 1 + l'.length⟩).2
      ⟨l', ⟨hb.1, parts, rfl, hframe⟩, hb.2, rfl⟩
    rw [hr] at hread
    cases hread
    rfl

namespace Protocol

/-- What the slicing reader reads are the bytes of `L`. -/
def Slices {α : Type} (f : Bytes → ℕ → Except Failure (Option (α × ℕ))) (L : α → Bytes → Prop) :
    Prop :=
  ∀ b start, start ≤ b.length → ∀ a next, f b start = .ok (some (a, next)) ↔
    ∃ l, L a l ∧ l <+: b.drop start ∧ next = start + l.length

section Slices

variable {α β : Type} {f : Bytes → ℕ → Except Failure (Option (α × ℕ))}
  {g : α → Bytes → ℕ → Except Failure (Option (β × ℕ))} {L L' : α → Bytes → Prop}
  {M : α → β → Bytes → Prop}

theorem Slices.congr (h : Slices f L) (hL : ∀ a l, L a l ↔ L' a l) : Slices f L' := by
  intro b start hs a next
  rw [h b start hs a next]
  exact exists_congr fun l => and_congr_left' (hL a l)

theorem prefix_drop_le {b l : Bytes} {start : ℕ} (hs : start ≤ b.length) (h : l <+: b.drop start) :
    start + l.length ≤ b.length := by
  have := h.length_le
  rw [List.length_drop] at this
  omega

theorem append_prefix_drop {b l₁ l₂ : Bytes} {start : ℕ} :
    l₁ ++ l₂ <+: b.drop start ↔ l₁ <+: b.drop start ∧ l₂ <+: b.drop (start + l₁.length) := by
  constructor
  · rintro ⟨rest, hrest⟩
    rw [List.append_assoc] at hrest
    refine ⟨⟨_, hrest⟩, rest, ?_⟩
    rw [← List.drop_drop, ← hrest, List.drop_left]
  · rintro ⟨⟨r₁, h₁⟩, r₂, h₂⟩
    refine ⟨r₂, ?_⟩
    rw [← List.drop_drop, ← h₁, List.drop_left] at h₂
    rw [List.append_assoc, h₂, h₁]

theorem Slices.andThen (hf : Slices f L) (hg : ∀ a, Slices (g a) (M a)) :
    Slices (Protocol.andThen f g) (Then L M) := by
  intro b start hs y next
  constructor
  · intro h
    obtain ⟨a, mid, hmid, h⟩ := andThen_eq_some h
    obtain ⟨l₁, hl₁, hpre₁, rfl⟩ := (hf b start hs a mid).1 hmid
    obtain ⟨l₂, hl₂, hpre₂, rfl⟩ := (hg a b _ (prefix_drop_le hs hpre₁) y next).1 h
    exact ⟨l₁ ++ l₂, ⟨a, l₁, l₂, hl₁, hl₂, rfl⟩, append_prefix_drop.2 ⟨hpre₁, hpre₂⟩,
      by rw [List.length_append, Nat.add_assoc]⟩
  · rintro ⟨l, ⟨a, l₁, l₂, hl₁, hl₂, rfl⟩, hpre, rfl⟩
    obtain ⟨hpre₁, hpre₂⟩ := append_prefix_drop.1 hpre
    rw [andThen_some ((hf b start hs a _).2 ⟨l₁, hl₁, hpre₁, rfl⟩)]
    exact (hg a b _ (prefix_drop_le hs hpre₁) y _).2
      ⟨l₂, hl₂, hpre₂, by rw [List.length_append, Nat.add_assoc]⟩

theorem Slices.unless {p : Prop} [Decidable p] (e : Failure) (hf : Slices f L) :
    Slices (fun b start => if p then .error e else f b start) fun a l => ¬p ∧ L a l := by
  by_cases hp : p
  · intro b start hs a next
    simp [hp]
  · simpa only [hp, if_false, not_false_eq_true, true_and] using hf

theorem slices_pure (x : α) :
    Slices (fun _ start => .ok (some (x, start))) fun a l => a = x ∧ l = [] := by
  intro b start hs a next
  constructor
  · intro h
    cases h
    exact ⟨[], ⟨rfl, rfl⟩, List.nil_prefix, rfl⟩
  · rintro ⟨l, ⟨rfl, rfl⟩, -, rfl⟩
    rfl

end Slices

theorem slices_readMarker (marker : UInt8) (fault : UInt8 → ParseFault) :
    Slices (readMarker marker fault) fun _ l => l = [marker] := by
  intro b start hs u next
  simp only [exists_eq_left, List.length_singleton]
  rcases Nat.lt_or_ge start b.length with hlt | hge
  · obtain ⟨found, hfound, heq⟩ := readMarker_of_lt marker fault hlt
    have hget : b[start] = found := by
      unfold index at hfound
      rw [List.getElem?_eq_getElem hlt] at hfound
      cases hfound
      rfl
    rw [heq, List.drop_eq_getElem_cons hlt, hget, List.cons_prefix_cons]
    split_ifs with hne
    · simp [Ne.symm hne]
    · simp [not_not.1 hne, eq_comm]
  · rw [readMarker_none _ _ hge, List.drop_eq_nil_of_le hge]
    simp

theorem crlfPosition_append : ∀ (l rest : Bytes), 13 ∉ l →
    crlfPosition (l ++ crlf ++ rest) = some l.length
  | [], rest, _ => rfl
  | b :: l, rest, h => by
    rw [List.mem_cons, not_or] at h
    rw [List.cons_append, List.cons_append, crlfPosition, if_neg fun hb => h.1 hb.1.symm,
      crlfPosition_append l rest h.2]
    rfl

theorem prefix_of_crlfPosition : ∀ (b : Bytes) {p : ℕ}, crlfPosition b = some p →
    b.take p ++ crlf <+: b
  | [], _, h => by cases h
  | x :: rest, p, h => by
    rw [crlfPosition] at h
    split_ifs at h with hx
    · cases h
      rcases rest with _ | ⟨y, rest⟩
      · cases hx.2
      · have hy := hx.2
        rw [List.head?_cons, Option.some.injEq] at hy
        simp [crlf, hx.1, hy]
    · obtain ⟨q, hq, rfl⟩ := Option.map_eq_some_iff.1 h
      rw [List.take_succ_cons, List.cons_append, List.cons_prefix_cons]
      exact ⟨rfl, prefix_of_crlfPosition rest hq⟩

theorem parseLine_eq_ok {line : Bytes} {v : Int64} :
    parseLine line = .ok v ↔ parseI64 line = some v := by
  unfold parseLine
  constructor
  · intro h
    split_ifs at h
    rcases hp : parseI64 line with _ | w <;> rw [hp] at h <;> cases h
    rfl
  · intro h
    have hvalid : Utf8.valid line = true := Utf8.valid_of_ascii line fun b hb => by
      have := (parseI64_bounds h b hb).2
      rw [UInt8.lt_iff_toNat_lt]
      exact Nat.lt_of_le_of_lt this (by decide)
    rw [if_neg (by rw [hvalid]; nofun), h]

theorem slices_readIntegerLine : Slices readIntegerLine IsLine := by
  intro b start hs v next
  constructor
  · intro h
    rcases hf : findCrlf b start with _ | p
    · unfold readIntegerLine at h
      rw [hf] at h
      cases h
    have hp := findCrlf_bounds hf
    rw [readIntegerLine_eq hf] at h
    rcases hl : parseLine ((b.take p).drop start) with e | w <;> rw [hl] at h <;> cases h
    unfold findCrlf at hf
    rw [if_neg (by omega)] at hf
    obtain ⟨q, hq, rfl⟩ := Option.map_eq_some_iff.1 hf
    have hpre := prefix_of_crlfPosition _ hq
    rw [List.take_drop, Nat.add_comm start q] at hpre
    refine ⟨_, ⟨_, parseLine_eq_ok.1 hl, rfl⟩, hpre, ?_⟩
    simp only [crlf, List.length_append, List.length_drop, List.length_take, List.length_cons,
      List.length_nil]
    omega
  · rintro ⟨l, ⟨line, hv, rfl⟩, hpre, rfl⟩
    have hle := prefix_drop_le hs hpre
    have hlen : (line ++ crlf).length = line.length + 2 := by simp [crlf]
    obtain ⟨rest, hrest⟩ := hpre
    have hpos : findCrlf b start = some (line.length + start) := by
      unfold findCrlf
      rw [if_neg (by omega), ← hrest, crlfPosition_append _ _ (not_mem_of_parseI64 hv)]
      rfl
    have hline : (b.take (line.length + start)).drop start = line := by
      rw [List.drop_take, ← hrest, Nat.add_sub_cancel, List.append_assoc, List.take_left]
    rw [readIntegerLine_eq hpos, hline, parseLine_eq_ok.2 hv]
    simp only [Except.map, Except.ok.injEq, Option.some.injEq, Prod.mk.injEq, true_and]
    omega

theorem slices_readPayload (len : ℕ) : Slices (fun b afterLen => readPayload b afterLen len)
    fun part l => part.length = len ∧ l = part ++ crlf := by
  intro b start hs part next
  constructor
  · intro h
    rcases Nat.lt_or_ge b.length (start + len + 2) with hlt | hle
    · unfold readPayload at h
      simp only [if_pos hlt] at h
      cases h
    · simp only [readPayload_eq hle] at h
      split_ifs at h with hend
      cases h
      have hlen : ((b.take (start + len)).drop start).length = len := by
        rw [List.length_drop, List.length_take]
        omega
      refine ⟨_, ⟨hlen, rfl⟩, append_prefix_drop.2 ⟨?_, ?_⟩, ?_⟩
      · rw [List.drop_take, Nat.add_sub_cancel_left]
        exact List.take_prefix _ _
      · rw [hlen, ← not_not.1 hend, List.drop_take]
        exact List.take_prefix _ _
      · simp only [List.length_append, hlen, crlf, List.length_cons, List.length_nil]
        omega
  · rintro ⟨l, ⟨rfl, rfl⟩, hpre, rfl⟩
    have hlen : (part ++ crlf).length = part.length + 2 := by simp [crlf]
    have hle := prefix_drop_le hs hpre
    obtain ⟨⟨rest, hrest⟩, rest', hrest'⟩ := append_prefix_drop.1 hpre
    have hpart : (b.take (start + part.length)).drop start = part := by
      rw [List.drop_take, ← hrest, Nat.add_sub_cancel_left, List.take_left]
    have hend : (b.take (start + part.length + 2)).drop (start + part.length) = crlf := by
      rw [List.drop_take, ← hrest', Nat.add_sub_cancel_left]
      rfl
    rw [hlen, ← Nat.add_assoc]
    simp only [readPayload_eq (show start + part.length + 2 ≤ b.length by omega), hpart, hend, ne_eq,
      not_true_eq_false, if_false]

theorem slices_readBulkString :
    Slices readBulkString fun part l => part.length ≤ maxBulkLen ∧ IsBulk part l := by
  rw [readBulkString_eq]
  refine ((slices_readMarker _ _).andThen fun _ => slices_readIntegerLine.andThen fun len =>
    .unless _ (.unless _ (slices_readPayload len.toInt.toNat))).congr fun part l => ?_
  constructor
  · rintro ⟨-, -, -, rfl, ⟨v, line, _, hv, ⟨hneg, hmax, hlen, rfl⟩, rfl⟩, rfl⟩
    exact ⟨by omega, v, line, hv, by omega, rfl⟩
  · rintro ⟨hmax, v, line, hv, hlen, rfl⟩
    exact ⟨(), _, _, rfl, ⟨v, line, _, hv, ⟨by omega, by omega, by omega, rfl⟩, rfl⟩, rfl⟩

theorem slices_readParts : ∀ count, Slices (fun b start => readParts b count start) fun parts l =>
    parts.length = count ∧ (∀ part ∈ parts, part.length ≤ maxBulkLen) ∧ AreBulks parts l
  | 0 => (slices_pure []).congr fun parts l => by
    rcases parts with _ | ⟨part, parts⟩ <;> simp [AreBulks]
  | count + 1 => by
    rw [readParts_succ]
    refine (slices_readBulkString.andThen fun part => (slices_readParts count).andThen fun parts =>
      slices_pure (part :: parts)).congr fun all l => ?_
    constructor
    · rintro ⟨part, l₁, _, ⟨hmax, hpart⟩, ⟨parts, l₂, _, ⟨hlen, hall, hparts⟩, ⟨rfl, rfl⟩, rfl⟩, rfl⟩
      exact ⟨by simp [hlen], List.forall_mem_cons.2 ⟨hmax, hall⟩, l₁, l₂, hpart, hparts, by simp⟩
    · rintro ⟨hlen, hmax, hall⟩
      rcases all with _ | ⟨part, parts⟩
      · cases hlen
      rw [List.forall_mem_cons] at hmax
      obtain ⟨l₁, l₂, hpart, hparts, rfl⟩ := hall
      exact ⟨part, l₁, l₂, ⟨hmax.1, hpart⟩, ⟨parts, l₂, [], ⟨by simpa using hlen, hmax.2, hparts⟩,
        ⟨rfl, rfl⟩, by simp⟩, rfl⟩

/-- The arrays that the parser takes. -/
structure Framable (parts : List Bytes) : Prop where
  pos : 1 ≤ parts.length
  count : parts.length ≤ maxArrayElements
  bulk : ∀ part ∈ parts, part.length ≤ maxBulkLen

theorem slices_readFrame : Slices readFrame fun parts l => Framable parts ∧ IsFrame parts l := by
  refine ((slices_readMarker _ _).andThen fun _ => slices_readIntegerLine.andThen fun count =>
    .unless _ (.unless _ (slices_readParts count.toInt.toNat))).congr fun parts l => ?_
  constructor
  · rintro ⟨-, -, -, rfl, ⟨v, line, elements, hv, ⟨hpos, hmax, hlen, hbulk, helems⟩, rfl⟩, rfl⟩
    exact ⟨⟨by omega, by omega, hbulk⟩, v, line, elements, hv, by omega, helems, rfl⟩
  · rintro ⟨⟨hpos, hmax, hbulk⟩, v, line, elements, hv, hlen, helems, rfl⟩
    exact ⟨(), _, _, rfl, ⟨v, line, elements, hv, ⟨by omega, by omega, by omega, hbulk, helems⟩, rfl⟩,
      rfl⟩

/-- The array of a request is read from its bytes and from no others. -/
theorem readFrame_iff {b : Bytes} {parts : List Bytes} {n : ℕ} :
    readFrame b 0 = .ok (some (parts, n)) ↔
      Framable parts ∧ n ≤ b.length ∧ IsFrame parts (b.take n) := by
  rw [slices_readFrame b 0 (Nat.zero_le _) parts n]
  simp only [List.drop_zero, Nat.zero_add]
  constructor
  · rintro ⟨l, ⟨hparts, hframe⟩, hpre, rfl⟩
    refine ⟨hparts, hpre.length_le, ?_⟩
    rwa [← List.prefix_iff_eq_take.1 hpre]
  · rintro ⟨hparts, hle, hframe⟩
    exact ⟨b.take n, ⟨hparts, hframe⟩, List.take_prefix _ _, (List.length_take_of_le hle).symm⟩

theorem readFrame_iff_readRecord {b : Bytes} {parts : List Bytes} {n : ℕ} :
    readFrame b 0 = .ok (some (parts, n)) ↔
      Framable parts ∧ n ≤ b.length ∧ readRecord b = (.ok (some parts), b.drop n) := by
  rw [readFrame_iff]
  refine and_congr_right fun _ => and_congr_right fun hle => ?_
  rw [readRecord_iff]
  constructor
  · intro h
    exact ⟨_, h, (List.take_append_drop n b).symm⟩
  · rintro ⟨l, hframe, hb⟩
    have hl : l = b.take n :=
      List.append_cancel_right (hb.symm.trans (List.take_append_drop n b).symm)
    rwa [← hl]

/-- The request parser takes `n` bytes exactly when the reader of the log takes the same `n` bytes and
reads an array within the limits of the parser; the elements are the same, and the request is the
command that these elements build. -/
theorem decoders_agree (float : FloatOps) (b : Bytes) :
    (∀ p n, parseFrame float b = .ok p → p ≠ .incomplete → p.consumed = n →
      ∃ parts, readFrame b 0 = .ok (some (parts, n)) ∧ finishFrame float parts n = .ok p
        ∧ n ≤ b.length ∧ readRecord b = (.ok (some parts), b.drop n))
    ∧ ∀ parts n, n ≤ b.length → readRecord b = (.ok (some parts), b.drop n) →
      1 ≤ parts.length → parts.length ≤ 2 ^ 20 →
      (∀ part ∈ parts, part.length ≤ 512 * 1024 * 1024) →
      ∃ p, parseFrame float b = .ok p ∧ p ≠ .incomplete ∧ p.consumed = n
        ∧ finishFrame float parts n = .ok p := by
  constructor
  · intro p n hp hne hn
    rw [parseFrame_eq] at hp
    rcases hr : readFrame b 0 with e | _ | ⟨parts, next⟩
    · rw [hr] at hp
      cases hp
    · rw [hr] at hp
      cases hp
      exact absurd rfl hne
    rw [hr, frameOf] at hp
    obtain ⟨hparts, hle, hread⟩ := readFrame_iff_readRecord.1 hr
    rcases parts with _ | ⟨name, args⟩
    · exact absurd hparts.pos (by simp)
    obtain ⟨q, hq, -, hnext⟩ := finishFrame_cons float name args next
    rw [hp] at hq
    cases hq
    obtain rfl : next = n := hnext.symm.trans hn
    exact ⟨name :: args, rfl, hp, hle, hread⟩
  · intro parts n hle hread hpos hmax hbulk
    have hr := readFrame_iff_readRecord.2 ⟨⟨hpos, hmax, hbulk⟩, hle, hread⟩
    rcases parts with _ | ⟨name, args⟩
    · exact absurd hpos (by simp)
    obtain ⟨p, hp, hne, hn⟩ := finishFrame_cons float name args n
    refine ⟨p, ?_, hne, hn, hp⟩
    rw [parseFrame_eq, hr, frameOf, hp]

/-- A number with a sign and leading zeros, and a byte of the next request. -/
def signedPing : Bytes := text "*+01\r\n$04\r\nPING\r\n*"

theorem decoders_agree_signedPing :
    (∃ parts, readFrame signedPing 0 = .ok (some (parts, 17))
        ∧ finishFrame (Env.steady 0).float parts 17 = .ok (.complete (.ping none) 17)
        ∧ 17 ≤ signedPing.length ∧ readRecord signedPing = (.ok (some parts), signedPing.drop 17))
    ∧ ∃ p, parseFrame (Env.steady 0).float signedPing = .ok p ∧ p ≠ .incomplete ∧ p.consumed = 17
        ∧ finishFrame (Env.steady 0).float [text "PING"] 17 = .ok p :=
  ⟨(decoders_agree (Env.steady 0).float signedPing).1 (.complete (.ping none) 17) 17 rfl nofun rfl,
    (decoders_agree (Env.steady 0).float signedPing).2 [text "PING"] 17 (by decide) (by decide)
      (by decide) (by decide) (by simp [text, ascii])⟩

end Protocol
end FerrumKv
