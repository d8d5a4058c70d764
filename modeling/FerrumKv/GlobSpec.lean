import FerrumKv.Glob
import FerrumKv.Lib.Splits

/-!
# What a glob pattern means, and the matcher's cursors

A pattern is read from left to right as a list of tokens (`globTokens`), and matches the texts that
split into pieces the tokens accept. Below it stands the matcher as the source has it, with cursors
into the pattern and the text (`globLoop`): every read of a byte is checked, so that one outside of
either is an error, as is running out of rounds.
-/

namespace FerrumKv

/-! ## Tokens -/

inductive ClassMember where
  | byte (b : UInt8)
  | range (lo hi : UInt8)
  deriving DecidableEq

def ClassMember.has (c : UInt8) : ClassMember → Bool
  | byte b => decide (c = b)
  | range lo hi => inRange lo hi c

inductive GlobToken where
  | star
  | any
  | byte (b : UInt8)
  | cls (negate : Bool) (members : List ClassMember)
  deriving DecidableEq

/-- The pieces of a text that a token stands for. -/
def GlobToken.Accepts : GlobToken → Bytes → Prop
  | star, _ => True
  | any, piece => ∃ c, piece = [c]
  | byte b, piece => piece = [b]
  | cls negate members, piece => ∃ c, piece = [c] ∧ members.any (·.has c) ≠ negate

/-- The members of a class up to its closing bracket, and the pattern after it. -/
def readClass : Bytes → Option (List ClassMember × Bytes)
  | [] => none
  | x :: rest =>
    if x = 93 then some ([], rest)
    else
      match x, rest with
      | x, [] => (readClass []).map fun r => (.byte x :: r.1, r.2)
      | x, y :: rest =>
        if x = 92 then (readClass rest).map fun r => (.byte y :: r.1, r.2)
        else
          match rest with
          | [] => (readClass [y]).map fun r => (.byte x :: r.1, r.2)
          | z :: rest' =>
            if y = 45 ∧ z ≠ 93 then (readClass rest').map fun r => (.range x z :: r.1, r.2)
            else (readClass (y :: z :: rest')).map fun r => (.byte x :: r.1, r.2)

/-- The members of a class after its bracket: an exclamation mark negates them. -/
def classBody (pat : Bytes) : Bytes := if pat.head? = some 33 then pat.tail else pat

/-- Reads at most `fuel` tokens. An escape takes two bytes, but a backslash at the end is itself; a
bracket that is not closed is itself. -/
def tokensFrom : ℕ → Bytes → List GlobToken
  | 0, _ => []
  | _ + 1, [] => []
  | fuel + 1, c :: pat =>
    if c = 42 then .star :: tokensFrom fuel pat
    else if c = 63 then .any :: tokensFrom fuel pat
    else if c = 92 then .byte (pat.headD 92) :: tokensFrom fuel pat.tail
    else if c = 91 then
      match readClass (classBody pat) with
      | none => .byte 91 :: tokensFrom fuel pat
      | some (members, rest) => .cls (decide (pat.head? = some 33)) members :: tokensFrom fuel rest
    else .byte c :: tokensFrom fuel pat

def globTokens (pattern : Bytes) : List GlobToken := tokensFrom pattern.length pattern

/-! ## Cursors -/

inductive GlobFault where
  | index
  | rounds
  deriving DecidableEq

/-- `xs[i]`. -/
def byteAt (xs : Bytes) (i : ℕ) : Except GlobFault UInt8 :=
  match xs[i]? with
  | some b => .ok b
  | none => .error .index

/-- `&xs[i..]`. -/
def sliceAt (xs : Bytes) (i : ℕ) : Except GlobFault Bytes :=
  if i ≤ xs.length then .ok (xs.drop i) else .error .index

/-- Whether a range starts at `k`. -/
def rangeAt (pat : Bytes) (k : ℕ) : Except GlobFault Bool :=
  if k + 2 < pat.length then
    byteAt pat (k + 1) >>= fun y =>
      if y = 45 then byteAt pat (k + 2) >>= fun z => .ok (decide (z ≠ 93)) else .ok false
  else .ok false

/-- The loop over the members of a class: where it ends, and whether `txt[t]` was one of them. -/
def classLoop (pat txt : Bytes) (t : ℕ) : ℕ → ℕ → Bool → Except GlobFault (ℕ × Bool)
  | 0, _, _ => .error .rounds
  | rounds + 1, k, matched =>
    if k < pat.length then
      byteAt pat k >>= fun x =>
      if x = 93 then .ok (k, matched)
      else if x = 92 ∧ k + 1 < pat.length then
        byteAt txt t >>= fun c => byteAt pat (k + 1) >>= fun y =>
          classLoop pat txt t rounds (k + 2) (matched || decide (c = y))
      else
        rangeAt pat k >>= fun isRange =>
        if isRange then
          byteAt pat (k + 2) >>= fun hi => byteAt txt t >>= fun c =>
            classLoop pat txt t rounds (k + 3) (matched || inRange x hi c)
        else
          byteAt txt t >>= fun c =>
            classLoop pat txt t rounds (k + 1) (matched || decide (c = x))
    else .ok (k, matched)

def skipStars (pat : Bytes) : ℕ → ℕ → Except GlobFault ℕ
  | 0, _ => .error .rounds
  | rounds + 1, p =>
    if p + 1 < pat.length then
      byteAt pat (p + 1) >>= fun c => if c = 42 then skipStars pat rounds (p + 1) else .ok p
    else .ok p

/-- Tries the positions in turn until one matches. -/
def firstMatch (attempt : ℕ → Except GlobFault Bool) : List ℕ → Except GlobFault Bool
  | [] => .ok false
  | i :: is => attempt i >>= fun found => if found then .ok true else firstMatch attempt is

/-- The matcher with its cursors `p` and `t`; a star tries the rest of the pattern on every rest of
the text. -/
def globLoop : ℕ → Bytes → Bytes → ℕ → ℕ → Except GlobFault Bool
  | 0, _, _, _, _ => .error .rounds
  | rounds + 1, pat, txt, p, t =>
    if p < pat.length then
      byteAt pat p >>= fun c =>
      if c = 42 then
        skipStars pat pat.length p >>= fun p =>
        if p + 1 = pat.length then .ok true
        else
          firstMatch (fun i => sliceAt pat (p + 1) >>= fun pat => sliceAt txt i >>= fun txt =>
            globLoop rounds pat txt 0 0) (List.range' t (txt.length + 1 - t))
      else if c = 63 then
        if txt.length ≤ t then .ok false else globLoop rounds pat txt (p + 1) (t + 1)
      else if c = 92 then
        byteAt pat (if p + 1 < pat.length then p + 1 else p) >>= fun pc =>
        if txt.length ≤ t then .ok false
        else byteAt txt t >>= fun b =>
          if b ≠ pc then .ok false else globLoop rounds pat txt (p + 2) (t + 1)
      else if c = 91 then
        if txt.length ≤ t then .ok false
        else
          (if p + 1 < pat.length then byteAt pat (p + 1) >>= fun x => .ok (decide (x = 33))
            else .ok false) >>= fun negate =>
          classLoop pat txt t (pat.length + 1) (if negate then p + 2 else p + 1) false >>= fun r =>
          if pat.length ≤ r.1 then
            byteAt txt t >>= fun b =>
              if b ≠ 91 then .ok false else globLoop rounds pat txt (p + 1) (t + 1)
          else if r.2 = negate then .ok false
          else globLoop rounds pat txt (r.1 + 1) (t + 1)
      else
        if txt.length ≤ t then .ok false
        else byteAt txt t >>= fun b =>
          if b ≠ c then .ok false else globLoop rounds pat txt (p + 1) (t + 1)
    else .ok (decide (t = txt.length))

end FerrumKv
