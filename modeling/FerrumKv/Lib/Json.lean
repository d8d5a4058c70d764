import FerrumKv.Lib.Decimal
import FerrumKv.Lib.Utf8
import Mathlib.Data.List.TakeWhile

/-!
# JSON

A reader for the texts of RFC 8259: `parse` takes the whole of a UTF-8 text, with any white space
between its parts, every escape of a string and numbers as they are written. `Reads bytes j` says
that `bytes` is read as `j` wherever a value may stand and whatever follows it; it is shown of the
parts of a text first (`reads_string`, `reads_int`, `reads_object`, `reads_array`) and then of the
text (`Reads.parse`).
-/

inductive Json
  | null
  | bool (b : Bool)
  | number (literal : List UInt8)
  | string (s : List UInt8)
  | array (items : List Json)
  | object (members : List (List UInt8 × Json))

namespace Json

variable {bytes : List UInt8} {b : UInt8} {j : Json}

def isSpace (b : UInt8) : Bool := b = 32 || b = 9 || b = 10 || b = 13

def skip (bs : List UInt8) : List UInt8 := bs.dropWhile isSpace

def get? : Json → List UInt8 → Option Json
  | .object members, name => (members.find? (·.1 = name)).map (·.2)
  | _, _ => none

/-! ## Strings -/

def hexValue (b : UInt8) : Option ℕ :=
  if 48 ≤ b ∧ b ≤ 57 then some (b.toNat - 48)
  else if 97 ≤ b ∧ b ≤ 102 then some (b.toNat - 87)
  else if 65 ≤ b ∧ b ≤ 70 then some (b.toNat - 55)
  else none

/-- The code unit of four hexadecimal digits. -/
def codeUnit (a b c d : UInt8) : Option ℕ :=
  (hexValue a).bind fun a => (hexValue b).bind fun b => (hexValue c).bind fun c =>
    (hexValue d).map fun d => ((a * 16 + b) * 16 + c) * 16 + d

def utf8 (n : ℕ) : List UInt8 :=
  if n < 0x80 then [UInt8.ofNat n]
  else if n < 0x800 then [UInt8.ofNat (0xC0 + n / 64), UInt8.ofNat (0x80 + n % 64)]
  else if n < 0x10000 then
    [UInt8.ofNat (0xE0 + n / 4096), UInt8.ofNat (0x80 + n / 64 % 64), UInt8.ofNat (0x80 + n % 64)]
  else
    [UInt8.ofNat (0xF0 + n / 262144), UInt8.ofNat (0x80 + n / 4096 % 64),
      UInt8.ofNat (0x80 + n / 64 % 64), UInt8.ofNat (0x80 + n % 64)]

/-- The character of the escape `\u` with the code unit `u`, and how many bytes it takes. A high
surrogate needs the escape of a low one behind it. -/
def unicode (u : ℕ) (rest : List UInt8) : Option (List UInt8 × ℕ) :=
  if u < 0xD800 ∨ 0xE000 ≤ u then some (utf8 u, 6)
  else
    match rest with
    | 92 :: 117 :: a :: b :: c :: d :: _ =>
      (codeUnit a b c d).bind fun l =>
        if u < 0xDC00 ∧ 0xDC00 ≤ l ∧ l < 0xE000 then
          some (utf8 (0x10000 + (u - 0xD800) * 0x400 + (l - 0xDC00)), 12)
        else none
    | _ => none

/-- The byte of an escape with one sign. -/
def escaped (c : UInt8) : Option UInt8 :=
  if c = 34 ∨ c = 92 ∨ c = 47 then some c
  else if c = 98 then some 8
  else if c = 102 then some 12
  else if c = 110 then some 10
  else if c = 114 then some 13
  else if c = 116 then some 9
  else none

/-- The first character inside a string, and how many bytes it takes. -/
def char : List UInt8 → Option (List UInt8 × ℕ)
  | 92 :: 117 :: a :: b :: c :: d :: rest => (codeUnit a b c d).bind fun u => unicode u rest
  | 92 :: c :: _ => (escaped c).map fun b => ([b], 2)
  | b :: _ => if b < 32 ∨ b = 34 ∨ b = 92 then none else some ([b], 1)
  | [] => none

/-- The characters up to the closing quote, after as many bytes as the last one still takes. -/
def stringFrom : ℕ → List UInt8 → Option (List UInt8 × List UInt8)
  | _, [] => none
  | n + 1, _ :: rest => stringFrom n rest
  | 0, b :: rest =>
    if b = 34 then some ([], rest)
    else
      (char (b :: rest)).bind fun c => (stringFrom (c.2 - 1) rest).map fun p => (c.1 ++ p.1, p.2)

/-! ## Numbers and words -/

def isNumberByte (b : UInt8) : Bool :=
  Decimal.isDigit b || b = 43 || b = 45 || b = 46 || b = 69 || b = 101

/-- The end of a number: nothing, or an exponent. -/
def isExponent : List UInt8 → Bool
  | [] => true
  | e :: rest =>
    let digits := match rest with
      | [] => []
      | b :: more => if b = 43 ∨ b = 45 then more else rest
    (e = 69 || e = 101) && !digits.isEmpty && digits.all Decimal.isDigit

def isFraction : List UInt8 → Bool
  | 46 :: rest =>
    !(rest.takeWhile Decimal.isDigit).isEmpty && isExponent (rest.dropWhile Decimal.isDigit)
  | rest => isExponent rest

def isUnsigned (t : List UInt8) : Bool :=
  let whole := t.takeWhile Decimal.isDigit
  (decide (whole = [48]) || (!whole.isEmpty && whole.head? != some 48))
    && isFraction (t.dropWhile Decimal.isDigit)

def isNumber : List UInt8 → Bool
  | 45 :: t => isUnsigned t
  | t => isUnsigned t

def wordTrue : List UInt8 := [116, 114, 117, 101]

def wordFalse : List UInt8 := [102, 97, 108, 115, 101]

def wordNull : List UInt8 := [110, 117, 108, 108]

def scalar (bs : List UInt8) : Option (Json × List UInt8) :=
  if wordTrue <+: bs then some (.bool true, bs.drop 4)
  else if wordFalse <+: bs then some (.bool false, bs.drop 5)
  else if wordNull <+: bs then some (.null, bs.drop 4)
  else if isNumber (bs.takeWhile isNumberByte) then
    some (.number (bs.takeWhile isNumberByte), bs.dropWhile isNumberByte)
  else none

section Groups

variable {α : Type} (one : List UInt8 → Option (α × List UInt8)) (close : UInt8)

/-- The elements up to the closing bracket, of which there is at least one. -/
def listWith : ℕ → List UInt8 → Option (List α × List UInt8)
  | 0, _ => none
  | fuel + 1, bs =>
    (one bs).bind fun x =>
      match skip x.2 with
      | [] => none
      | c :: rest =>
        if c = 44 then (listWith fuel (skip rest)).map fun p => (x.1 :: p.1, p.2)
        else if c = close then some ([x.1], rest)
        else none

/-- The elements after an opening bracket. -/
def groupWith (fuel : ℕ) (bs : List UInt8) : Option (List α × List UInt8) :=
  match skip bs with
  | [] => none
  | c :: rest => if c = close then some ([], rest) else listWith one close fuel (c :: rest)

end Groups

def memberWith (one : List UInt8 → Option (Json × List UInt8)) (bs : List UInt8) :
    Option ((List UInt8 × Json) × List UInt8) :=
  match bs with
  | 34 :: rest =>
    (stringFrom 0 rest).bind fun name =>
      match skip name.2 with
      | 58 :: rest => (one (skip rest)).map fun p => ((name.1, p.1), p.2)
      | _ => none
  | _ => none

def value : ℕ → List UInt8 → Option (Json × List UInt8)
  | 0, _ | _, [] => none
  | fuel + 1, c :: rest =>
    if c = 34 then (stringFrom 0 rest).map fun p => (.string p.1, p.2)
    else if c = 91 then (groupWith (value fuel) 93 fuel rest).map fun p => (.array p.1, p.2)
    else if c = 123 then
      (groupWith (memberWith (value fuel)) 125 fuel rest).map fun p => (.object p.1, p.2)
    else scalar (c :: rest)

def member (fuel : ℕ) : List UInt8 → Option ((List UInt8 × Json) × List UInt8) :=
  memberWith (value fuel)

/-- The value of a text. Every bracket and every element takes a byte, so the fuel is enough. -/
def parse (bs : List UInt8) : Option Json :=
  if Utf8.valid bs then
    (value bs.length (skip bs)).bind fun p => if skip p.2 = [] then some p.1 else none
  else none

/-! ## Reading what was written -/

/-- What may follow a value: nothing that a number could go on with. -/
def Follows (rest : List UInt8) : Prop := ∀ b ∈ rest.head?, isNumberByte b = false

theorem follows_cons (h : isNumberByte b = false) (rest : List UInt8) :
    Follows (b :: rest) := by
  intro c hc
  cases hc
  exact h

/-- The first byte of an element: no space, no closing bracket. -/
def Begins (bytes : List UInt8) : Prop :=
  ∃ c rest, bytes = c :: rest ∧ isSpace c = false ∧ c ≠ 93 ∧ c ≠ 125

/-- `bytes` is read as `x` with as much fuel as it has bytes, whatever follows it. -/
structure ReadsAs {α : Type} (one : ℕ → List UInt8 → Option (α × List UInt8))
    (bytes : List UInt8) (x : α) : Prop where
  begins : Begins bytes
  reads : ∀ fuel rest, bytes.length ≤ fuel → Follows rest →
    one fuel (bytes ++ rest) = some (x, rest)

def Reads (bytes : List UInt8) (j : Json) : Prop := ReadsAs value bytes j

theorem Reads.of_succ (hb : Begins bytes) (h : ∀ fuel rest, bytes.length ≤ fuel + 1 → Follows rest →
      value (fuel + 1) (bytes ++ rest) = some (j, rest)) : Reads bytes j := by
  refine ⟨hb, fun fuel rest hfuel hrest => ?_⟩
  cases fuel with
  | zero =>
    obtain ⟨c, more, rfl, -⟩ := hb
    simp at hfuel
  | succ fuel => exact h fuel rest hfuel hrest

theorem skip_cons {c : UInt8} (h : isSpace c = false) (rest : List UInt8) :
    skip (c :: rest) = c :: rest :=
  List.dropWhile_cons_of_neg (by simp [h])

theorem skip_of_begins (h : Begins bytes) (rest : List UInt8) :
    skip (bytes ++ rest) = bytes ++ rest := by
  obtain ⟨c, more, rfl, hc, -⟩ := h
  exact skip_cons hc _

theorem Reads.parse (h : Reads bytes j) (hv : Utf8.valid bytes = true) : parse bytes = some j := by
  have hskip := skip_of_begins h.begins []
  have hread := h.reads bytes.length [] le_rfl (fun b hb => by cases hb)
  rw [List.append_nil] at hskip hread
  rw [Json.parse, if_pos hv, hskip, hread]
  rfl

/-- A text in UTF-8 that is one value. -/
structure Text (bytes : List UInt8) (j : Json) : Prop where
  reads : Reads bytes j
  valid : Utf8.valid bytes = true

theorem Text.parse (h : Text bytes j) : Json.parse bytes = some j :=
  h.reads.parse h.valid

/-! ### Strings -/

theorem stringFrom_skip : ∀ (taken rest : List UInt8),
    stringFrom taken.length (taken ++ rest) = stringFrom 0 rest
  | [], _ => rfl
  | _ :: taken, rest => stringFrom_skip taken rest

theorem stringFrom_char {taken rest c : List UInt8} (hb : b ≠ 34)
    (h : char (b :: (taken ++ rest)) = some (c, taken.length + 1)) :
    stringFrom 0 (b :: (taken ++ rest)) = (stringFrom 0 rest).map fun p => (c ++ p.1, p.2) := by
  rw [stringFrom, if_neg hb, h, Option.bind_some, Nat.add_sub_cancel, stringFrom_skip]

/-- The bytes between quotes that are read as `s`. -/
def Spells (body s : List UInt8) : Prop :=
  ∀ rest, stringFrom 0 (body ++ 34 :: rest) = some (s, rest)

theorem spells_nil : Spells [] [] := fun _ => rfl

theorem Spells.cons {taken c body s : List UInt8} (hb : b ≠ 34)
    (hc : ∀ rest, char (b :: (taken ++ rest)) = some (c, taken.length + 1)) (h : Spells body s) :
    Spells (b :: (taken ++ body)) (c ++ s) := by
  intro rest
  rw [List.cons_append, List.append_assoc, stringFrom_char hb (hc _), h rest]
  rfl

theorem Spells.plain {body s : List UInt8} (h1 : ¬ b < 32) (h2 : b ≠ 34) (h3 : b ≠ 92)
    (h : Spells body s) : Spells (b :: body) (b :: s) := by
  refine @Spells.cons b [] [b] body s h2 (fun rest => ?_) h
  rw [List.nil_append, char]
  · rw [if_neg (by simp [h1, h2, h3])]
    rfl
  · rintro a b' c d rest' h92
    exact absurd h92 h3
  · rintro c rest' h92
    exact absurd h92 h3

theorem spells_self : ∀ {t : List UInt8}, (∀ b ∈ t, ¬ b < 32 ∧ b ≠ 34 ∧ b ≠ 92) → Spells t t
  | [], _ => spells_nil
  | b :: t, h => by
    rw [List.forall_mem_cons] at h
    exact (spells_self h.2).plain h.1.1 h.1.2.1 h.1.2.2

theorem Spells.reads {body s : List UInt8} (h : Spells body s) :
    Reads (34 :: (body ++ [34])) (.string s) := by
  refine .of_succ ⟨34, _, rfl, by decide, by decide, by decide⟩ fun fuel rest _ _ => ?_
  rw [List.cons_append, List.append_assoc, List.singleton_append, value, if_pos rfl, h rest]
  rfl

/-! ### Words and numbers -/

theorem reads_true : Reads wordTrue (.bool true) :=
  .of_succ ⟨116, _, rfl, by decide, by decide, by decide⟩ fun _ _ _ _ => rfl

theorem reads_false : Reads wordFalse (.bool false) :=
  .of_succ ⟨102, _, rfl, by decide, by decide, by decide⟩ fun _ _ _ _ => rfl

theorem reads_null : Reads wordNull .null :=
  .of_succ ⟨110, _, rfl, by decide, by decide, by decide⟩ fun _ _ _ _ => rfl

theorem takeWhile_follows {literal rest : List UInt8}
    (h : ∀ b ∈ literal, isNumberByte b = true) (hrest : Follows rest) :
    (literal ++ rest).takeWhile isNumberByte = literal
      ∧ (literal ++ rest).dropWhile isNumberByte = rest := by
  rw [List.takeWhile_append_of_pos h, List.dropWhile_append_of_pos h]
  cases rest with
  | nil => simp
  | cons b rest =>
    have hb := hrest b rfl
    simp [hb]

/-- A number that begins with a digit or a minus sign is read as it is written. -/
theorem reads_number {t : List UInt8} (hb : Decimal.isDigit b = true ∨ b = 45)
    (hbytes : ∀ c ∈ b :: t, isNumberByte c = true) (hnumber : isNumber (b :: t) = true) :
    Reads (b :: t) (.number (b :: t)) := by
  have hfirst : ∀ c, Decimal.isDigit c = true ∨ c = 45 → isSpace c = false ∧ c ≠ 93 ∧ c ≠ 125
      ∧ c ≠ 34 ∧ c ≠ 91 ∧ c ≠ 123 ∧ c ≠ 116 ∧ c ≠ 102 ∧ c ≠ 110 := by
    rintro c (hc | rfl)
    · have hrange : 48 ≤ c.toNat ∧ c.toNat ≤ 57 := by simpa [Decimal.isDigit] using hc
      have hne : ∀ d : UInt8, d.toNat < 48 ∨ 57 < d.toNat → c ≠ d := by
        rintro d hd rfl
        omega
      have hspace : isSpace c = false := by
        simp [isSpace, hne 32 (by decide), hne 9 (by decide), hne 10 (by decide),
          hne 13 (by decide)]
      exact ⟨hspace, hne _ (by decide), hne _ (by decide), hne _ (by decide), hne _ (by decide),
        hne _ (by decide), hne _ (by decide), hne _ (by decide), hne _ (by decide)⟩
    · decide
  obtain ⟨hspace, h1, h2, h3, h4, h5, h6, h7, h8⟩ := hfirst b hb
  refine .of_succ ⟨b, t, rfl, hspace, h1, h2⟩ fun fuel rest _ hrest => ?_
  obtain ⟨htake, hdrop⟩ := takeWhile_follows hbytes hrest
  rw [List.cons_append] at htake hdrop ⊢
  rw [value, if_neg h3, if_neg h4, if_neg h5, scalar, htake, hdrop, if_neg, if_neg, if_neg,
    if_pos hnumber]
  · simp [wordNull, Ne.symm h8]
  · simp [wordFalse, Ne.symm h7]
  · simp [wordTrue, Ne.symm h6]

theorem isNumberByte_of_isDigit (h : Decimal.isDigit b = true) :
    isNumberByte b = true := by
  simp [isNumberByte, h]

theorem isUnsigned_ofNat (n : ℕ) : isUnsigned (Decimal.ofNat n) = true := by
  have hdigits : ∀ b ∈ Decimal.ofNat n, Decimal.isDigit b = true :=
    fun b hb => Decimal.isDigit_of_mem_ofNat hb
  have htake : (Decimal.ofNat n).takeWhile Decimal.isDigit = Decimal.ofNat n :=
    List.takeWhile_eq_self_iff.2 hdigits
  have hdrop : (Decimal.ofNat n).dropWhile Decimal.isDigit = [] :=
    List.dropWhile_eq_nil_iff.2 hdigits
  unfold isUnsigned
  simp only [htake, hdrop]
  by_cases hn : n = 0
  · subst hn
    rfl
  · have hhead := Decimal.head?_ofNat hn
    have hne := Decimal.ofNat_ne_nil n
    simp [isFraction, isExponent, hhead, hne]

theorem reads_nat (n : ℕ) : Reads (Decimal.ofNat n) (.number (Decimal.ofNat n)) := by
  have hdigits : ∀ b ∈ Decimal.ofNat n, Decimal.isDigit b = true :=
    fun b hb => Decimal.isDigit_of_mem_ofNat hb
  have hnumber := isUnsigned_ofNat n
  obtain ⟨b, t, hbt⟩ := List.exists_cons_of_ne_nil (Decimal.ofNat_ne_nil n)
  rw [hbt] at hdigits hnumber ⊢
  have hb := hdigits b List.mem_cons_self
  refine reads_number (.inl hb) (fun c hc => isNumberByte_of_isDigit (hdigits c hc)) ?_
  rw [isNumber]
  · exact hnumber
  · rintro _ ⟨⟩
    cases hb

theorem reads_int (z : ℤ) : Reads (Decimal.ofInt z) (.number (Decimal.ofInt z)) := by
  unfold Decimal.ofInt
  split_ifs
  · refine reads_number (.inr rfl) ?_ (isUnsigned_ofNat _)
    rw [List.forall_mem_cons]
    exact ⟨by decide, fun c hc => isNumberByte_of_isDigit (Decimal.isDigit_of_mem_ofNat hc)⟩
  · exact reads_nat _

section Groups

variable {α : Type} {one : ℕ → List UInt8 → Option (α × List UInt8)} {close : UInt8}

/-- Elements, each with the bytes that are read as it. -/
def ReadAll (one : ℕ → List UInt8 → Option (α × List UInt8)) (elements : List (List UInt8 × α)) :
    Prop :=
  ∀ e ∈ elements, ReadsAs one e.1 e.2

def joined (elements : List (List UInt8 × α)) : List UInt8 :=
  List.intercalate [44] (elements.map (·.1))

theorem joined_cons_cons (e e' : List UInt8 × α) (elements : List (List UInt8 × α)) :
    joined (e :: e' :: elements) = e.1 ++ 44 :: joined (e' :: elements) := by
  simp [joined, List.intercalate_cons_cons]

theorem begins_joined {e : List UInt8 × α} {elements : List (List UInt8 × α)}
    (h : Begins e.1) : Begins (joined (e :: elements)) := by
  obtain ⟨c, more, hc, hb⟩ := h
  cases elements with
  | nil => exact ⟨c, more, by simp [joined, hc], hb⟩
  | cons e' elements =>
    exact ⟨c, more ++ 44 :: joined (e' :: elements), by rw [joined_cons_cons, hc]; rfl, hb⟩

theorem length_le_joined : ∀ {elements : List (List UInt8 × α)} {e : List UInt8 × α},
    e ∈ elements → e.1.length ≤ (joined elements).length
  | [e'], e, he => by
    rw [List.mem_singleton.1 he]
    simp [joined]
  | e' :: e'' :: elements, e, he => by
    rw [joined_cons_cons, List.length_append, List.length_cons]
    rcases List.mem_cons.1 he with rfl | he
    · omega
    · have := length_le_joined he
      omega

theorem count_le_joined : ∀ {elements : List (List UInt8 × α)}, ReadAll one elements →
    elements.length ≤ (joined elements).length
  | [], _ => Nat.zero_le _
  | [e], h => by
    obtain ⟨c, more, hc, -⟩ := (h e (List.mem_singleton_self e)).begins
    simp [joined, hc]
  | e :: e' :: elements, h => by
    have ih := count_le_joined fun x hx => h x (List.mem_cons_of_mem e hx)
    rw [joined_cons_cons, List.length_append, List.length_cons]
    simp only [List.length_cons] at ih ⊢
    omega

theorem listWith_joined {big : ℕ} (hclose : isNumberByte close = false)
    (hspace : isSpace close = false) (hcomma : close ≠ 44) (rest : List UInt8) :
    ∀ {elements : List (List UInt8 × α)} {fuel : ℕ}, elements ≠ [] → ReadAll one elements →
      (∀ e ∈ elements, e.1.length ≤ big) → elements.length ≤ fuel →
        listWith (one big) close fuel (joined elements ++ close :: rest)
          = some (elements.map (·.2), rest)
  | [], _, hne, _, _, _ => absurd rfl hne
  | _ :: _, 0, _, _, _, hfuel => by simp at hfuel
  | [e], fuel + 1, _, hread, hbig, _ => by
    have hone := (hread e (List.mem_singleton_self e)).reads big (close :: rest)
      (hbig e (List.mem_singleton_self e)) (follows_cons hclose rest)
    have hjoined : joined [e] = e.1 := by simp [joined]
    rw [hjoined, listWith, hone, Option.bind_some]
    simp [skip, hspace, hcomma]
  | e :: e' :: elements, fuel + 1, _, hread, hbig, hfuel => by
    have hnumber : isNumberByte 44 = false := by decide
    have hcommaSpace : isSpace 44 = false := by decide
    have hone := (hread e List.mem_cons_self).reads big
      (44 :: (joined (e' :: elements) ++ close :: rest)) (hbig e List.mem_cons_self)
      (follows_cons hnumber _)
    have htail : ReadAll one (e' :: elements) := fun x hx => hread x (List.mem_cons_of_mem e hx)
    have ih := listWith_joined hclose hspace hcomma rest (List.cons_ne_nil e' elements) htail
      (fun x hx => hbig x (List.mem_cons_of_mem e hx)) (Nat.le_of_succ_le_succ hfuel)
    have hbegins : Begins (joined (e' :: elements)) :=
      begins_joined (htail e' List.mem_cons_self).begins
    rw [joined_cons_cons, List.append_assoc, List.cons_append, listWith, hone, Option.bind_some]
    simp only [skip_cons hcommaSpace, if_true, skip_of_begins hbegins, ih]
    rfl

theorem groupWith_joined {fuel : ℕ} {elements : List (List UInt8 × α)}
    (hclose : close = 93 ∨ close = 125) (h : ReadAll one elements)
    (hfuel : (joined elements).length ≤ fuel) (rest : List UInt8) :
    groupWith (one fuel) close fuel (joined elements ++ close :: rest)
      = some (elements.map (·.2), rest) := by
  have hspace : isSpace close = false := by rcases hclose with rfl | rfl <;> decide
  have hnumber : isNumberByte close = false := by rcases hclose with rfl | rfl <;> decide
  have hcomma : close ≠ 44 := by rcases hclose with rfl | rfl <;> decide
  cases elements with
  | nil =>
    have hjoined : joined ([] : List (List UInt8 × α)) = [] := rfl
    rw [hjoined, List.nil_append, groupWith, skip_cons hspace]
    simp
  | cons e elements =>
    have hlist := listWith_joined hnumber hspace hcomma rest (List.cons_ne_nil e elements) h
      (fun x hx => (length_le_joined hx).trans hfuel) ((count_le_joined h).trans hfuel)
    obtain ⟨c, more, hc, hcspace, hc93, hc125⟩ :=
      @begins_joined _ e elements (h e List.mem_cons_self).begins
    have hne : c ≠ close := by rcases hclose with rfl | rfl <;> assumption
    rw [hc, List.cons_append] at hlist ⊢
    rw [groupWith, skip_cons hcspace]
    simp only [hne, if_false, hlist]

end Groups

theorem reads_array {elements : List (List UInt8 × Json)} (h : ReadAll value elements) :
    Reads (91 :: (joined elements ++ [93])) (.array (elements.map (·.2))) := by
  refine .of_succ ⟨91, _, rfl, by decide, by decide, by decide⟩ fun fuel rest hfuel _ => ?_
  have hlen : (joined elements).length ≤ fuel := by
    simp only [List.length_cons, List.length_append] at hfuel
    omega
  have hgroup := groupWith_joined (.inl rfl) h hlen rest
  rw [List.cons_append, List.append_assoc, List.singleton_append, value, if_neg (by decide),
    if_pos rfl, hgroup]
  rfl

theorem reads_object {members : List (List UInt8 × List UInt8 × Json)}
    (h : ReadAll member members) :
    Reads (123 :: (joined members ++ [125])) (.object (members.map (·.2))) := by
  refine .of_succ ⟨123, _, rfl, by decide, by decide, by decide⟩ fun fuel rest hfuel _ => ?_
  have hlen : (joined members).length ≤ fuel := by
    simp only [List.length_cons, List.length_append] at hfuel
    omega
  have hgroup := groupWith_joined (.inr rfl) h hlen rest
  unfold member at hgroup
  rw [List.cons_append, List.append_assoc, List.singleton_append, value, if_neg (by decide),
    if_neg (by decide), if_pos rfl, hgroup]
  rfl

theorem reads_member {name body bytes : List UInt8} (hname : Spells body name) (h : Reads bytes j) :
    ReadsAs member (34 :: (body ++ 34 :: 58 :: bytes)) (name, j) := by
  refine ⟨⟨34, _, rfl, by decide, by decide, by decide⟩, fun fuel rest hfuel hrest => ?_⟩
  have hlen : bytes.length ≤ fuel := by
    simp only [List.length_cons, List.length_append] at hfuel
    omega
  have hvalue := h.reads fuel rest hlen hrest
  have hcolon : isSpace 58 = false := by decide
  rw [List.cons_append, List.append_assoc, List.cons_append, List.cons_append]
  simp only [member, memberWith]
  rw [hname, Option.bind_some]
  simp only [skip_cons hcolon, skip_of_begins h.begins, hvalue, Option.map_some]

theorem valid_joined {α : Type} : ∀ {elements : List (List UInt8 × α)},
    (∀ e ∈ elements, Utf8.valid e.1 = true) → Utf8.valid (joined elements) = true
  | [], _ => rfl
  | [e], h => by simpa [joined] using h e (List.mem_singleton_self e)
  | e :: e' :: elements, h => by
    rw [List.forall_mem_cons] at h
    have hcomma : Utf8.valid [44] = true := rfl
    rw [joined_cons_cons, Utf8.valid_append h.1, ← List.singleton_append, Utf8.valid_append hcomma,
      valid_joined h.2]

theorem valid_bracketed {open' close : UInt8} (hopen : open' < 0x80)
    (hclose : close < 0x80) (h : Utf8.valid bytes = true) :
    Utf8.valid (open' :: (bytes ++ [close])) = true := by
  have hfirst : Utf8.valid [open'] = true := Utf8.valid_of_ascii _ (by simpa using hopen)
  rw [← List.singleton_append, Utf8.valid_append hfirst, Utf8.valid_append h,
    Utf8.valid_of_ascii [close] (by simpa using hclose)]

theorem text_array {elements : List (List UInt8 × Json)} (h : ∀ e ∈ elements, Text e.1 e.2) :
    Text (91 :: (joined elements ++ [93])) (.array (elements.map (·.2))) :=
  ⟨reads_array fun e he => (h e he).reads,
    valid_bracketed (by decide) (by decide) (valid_joined fun e he => (h e he).valid)⟩

theorem text_object {members : List (List UInt8 × List UInt8 × Json)}
    (hname : ∀ m ∈ members, ∀ b ∈ m.1, b < 0x80 ∧ ¬ b < 32 ∧ b ≠ 34 ∧ b ≠ 92)
    (h : ∀ m ∈ members, Text m.2.1 m.2.2) :
    Text (123 :: (joined (members.map fun m =>
        (34 :: (m.1 ++ 34 :: 58 :: m.2.1), m.1, m.2.2)) ++ [125]))
      (.object (members.map fun m => (m.1, m.2.2))) := by
  refine ⟨?_, valid_bracketed (by decide) (by decide) (valid_joined ?_)⟩
  · have hobject := @reads_object (members.map fun m =>
      (34 :: (m.1 ++ 34 :: 58 :: m.2.1), m.1, m.2.2)) fun e he => by
        obtain ⟨m, hm, rfl⟩ := List.mem_map.1 he
        exact reads_member (spells_self fun b hb => (hname m hm b hb).2) (h m hm).reads
    rwa [List.map_map] at hobject
  · intro e he
    obtain ⟨m, hm, rfl⟩ := List.mem_map.1 he
    have hascii : ∀ b ∈ 34 :: (m.1 ++ [34, 58]), b < 0x80 := by
      simp only [List.mem_cons, List.mem_append]
      rintro b (rfl | hb | rfl | rfl | hb)
      · decide
      · exact (hname m hm b hb).1
      · decide
      · decide
      · cases hb
    have hsplit : 34 :: (m.1 ++ 34 :: 58 :: m.2.1) = 34 :: (m.1 ++ [34, 58]) ++ m.2.1 := by simp
    show Utf8.valid (34 :: (m.1 ++ 34 :: 58 :: m.2.1)) = true
    rw [hsplit, Utf8.valid_append (Utf8.valid_of_ascii _ hascii), (h m hm).valid]

end Json
