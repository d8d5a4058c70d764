import FerrumKv.Entry

/-!
# Glob patterns

The matcher of `scan_keys`, on what is left of the pattern and of the text.
-/

namespace FerrumKv

/-- Whether `c` lies in the range `lo`-`hi`; a descending range wraps around. -/
def inRange (lo hi c : UInt8) : Bool :=
  decide (lo ≤ hi ∧ lo ≤ c ∧ c ≤ hi ∨ hi < lo ∧ (lo ≤ c ∨ c ≤ hi))

/-- Reads the members of a class up to its closing bracket: whether `c` is one of them, and the
pattern after the bracket. `none` when the class is not closed. -/
def scanClass (c : UInt8) : Bytes → Option (Bool × Bytes)
  | [] => none
  | x :: rest =>
    if x = 93 then some (false, rest)
    else
      match x, rest with
      | x, [] => (scanClass c []).map fun r => (decide (c = x) || r.1, r.2)
      | x, y :: rest =>
        if x = 92 then (scanClass c rest).map fun r => (decide (c = y) || r.1, r.2)
        else
          match rest with
          | [] => (scanClass c [y]).map fun r => (decide (c = x) || r.1, r.2)
          | z :: rest' =>
            if y = 45 ∧ z ≠ 93 then (scanClass c rest').map fun r => (inRange x z c || r.1, r.2)
            else (scanClass c (y :: z :: rest')).map fun r => (decide (c = x) || r.1, r.2)

/-- The matcher, with fuel for one byte of the pattern a round. -/
def globGo : ℕ → Bytes → Bytes → Bool
  | 0, _, txt => txt.isEmpty
  | _ + 1, [], txt => txt.isEmpty
  | fuel + 1, c :: pat, txt =>
    if c = 42 then
      let pat := pat.dropWhile (· = 42)
      if pat = [] then true else txt.tails.any (globGo fuel pat)
    else
      match txt with
      | [] => false
      | b :: txt =>
        if c = 63 then globGo fuel pat txt
        else if c = 92 then
          match pat with
          | [] => decide (b = c) && globGo fuel [] txt
          | pc :: pat => decide (b = pc) && globGo fuel pat txt
        else if c = 91 then
          let negate := decide (pat.head? = some 33)
          match scanClass b (if negate then pat.tail else pat) with
          | none => decide (b = 91) && globGo fuel pat txt
          | some (matched, rest) => if matched = negate then false else globGo fuel rest txt
        else decide (b = c) && globGo fuel pat txt

def globMatch (pattern text : Bytes) : Bool := globGo pattern.length pattern text

end FerrumKv
