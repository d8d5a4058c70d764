import FerrumKv.Dashboard

/-!
# Command lines of the console

How a list of arguments is written as a line that means exactly these arguments, and what the parser
makes of them.
-/

namespace FerrumKv.Dashboard

def isBlank (b : UInt8) : Bool := b = 32 || b = 9 || b = 13 || b = 10

/-- A byte inside quotes. -/
def escapedByte (b : UInt8) : Bytes := if b = 34 ∨ b = 92 then [92, b] else [b]

def quotedArgument (arg : Bytes) : Bytes := 34 :: (arg.flatMap escapedByte ++ [34])

/-- The lines that quote every argument and put one or more blanks between them. -/
inductive QuotedLine : List Bytes → Bytes → Prop
  | last (arg : Bytes) : QuotedLine [arg] (quotedArgument arg)
  | cons (arg : Bytes) {blanks line : Bytes} {argv : List Bytes} (hne : blanks ≠ [])
      (hblanks : ∀ b ∈ blanks, isBlank b = true) (h : QuotedLine argv line) :
      QuotedLine (arg :: argv) (quotedArgument arg ++ (blanks ++ line))

/-- The frame of the arguments, as the console hands it to the parser. -/
def encodeRespArray (argv : List Bytes) : Bytes :=
  42 :: Decimal.ofNat argv.length ++ crlf
    ++ argv.flatMap fun a => 36 :: Decimal.ofNat a.length ++ crlf ++ a ++ crlf

/-- The outcome of a frame whose arguments build a command or do not. -/
def frameOutcome (consumed : ℕ) :
    Except Protocol.CommandError Protocol.Command → Protocol.FrameParse
  | .ok command => .complete command consumed
  | .error error => .invalid error consumed

end FerrumKv.Dashboard
