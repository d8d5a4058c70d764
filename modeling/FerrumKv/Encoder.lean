import FerrumKv.Lib.Binary64
import FerrumKv.Parser

/-!
# Replies on the wire

The encoders of replies and of errors. Each gives the bytes it appends to the reply buffer.
-/

namespace FerrumKv

inductive ProtocolVersion
  | resp2
  | resp3
  deriving DecidableEq, Repr

namespace Encoder

def encodeSimpleString (text : Bytes) : Bytes := 43 :: (text ++ crlf)

def encodeError (message : Bytes) : Bytes := 45 :: (message ++ crlf)

def encodeInteger (n : Int64) : Bytes := 58 :: (i64ToString n ++ crlf)

def encodeBulkString (payload : Bytes) : Bytes :=
  36 :: (Decimal.ofNat payload.length ++ crlf) ++ (payload ++ crlf)

def encodeNullBulk : Bytes := 36 :: ([45, 49] ++ crlf)

def encodeArrayHeader (count : ℕ) : Bytes := 42 :: (Decimal.ofNat count ++ crlf)

def encodeNull : Bytes := 95 :: ([] ++ crlf)

def encodeBoolean (v : Bool) : Bytes := 35 :: ([if v then 116 else 102] ++ crlf)

/-- A text without the characters `c` at its end. -/
def trimEndMatches (c : UInt8) (bytes : Bytes) : Bytes :=
  (bytes.reverse.dropWhile (· = c)).reverse

def encodeDouble (v : UInt64) : Bytes :=
  let number := trimEndMatches 48 (Binary64.fixed 17 v)
  44 :: ((if number.getLast? = some 46 then number ++ [48] else number) ++ crlf)

def encodeMapHeader (count : ℕ) : Bytes := 37 :: (Decimal.ofNat count ++ crlf)

end Encoder

inductive ServerError
  | lockPoisoned
  | internal (msg : Bytes)
  | parseError (msg : Bytes)
  | unknownCommand (cmd : Bytes)
  | wrongArity (cmd : String)
  | keyTooLong (len max : ℕ)
  | valueTooLarge (len max : ℕ)
  | outOfMemory
  | aofNotEnabled
  deriving DecidableEq, Repr

namespace ServerError

def ofEngine : FerrumError → ServerError
  | .parseError msg => .parseError (text msg)
  | .keyTooLong len max => .keyTooLong len max
  | .valueTooLarge len max => .valueTooLarge len max
  | .outOfMemory => .outOfMemory
  | .aofNotEnabled => .aofNotEnabled

def ofCommand : Protocol.CommandError → ServerError
  | .wrongArity cmd => .wrongArity cmd
  | .unknownCommand cmd => .unknownCommand cmd
  | .parseError msg => .parseError (text msg)

def display : ServerError → Bytes
  | .lockPoisoned => text "lock poisoned: poisoned lock: another task failed inside"
  | .internal msg => text "internal error: " ++ msg
  | .parseError msg => msg
  | .unknownCommand cmd => text "unknown command: '" ++ cmd ++ text "'"
  | .wrongArity cmd => text "wrong number of arguments for '" ++ text cmd ++ text "' command"
  | .keyTooLong len max =>
    text "key too long (" ++ Decimal.ofNat len ++ text " bytes, max " ++ Decimal.ofNat max ++ text ")"
  | .valueTooLarge len max =>
    text "value too large (" ++ Decimal.ofNat len ++ text " bytes, max " ++ Decimal.ofNat max
      ++ text ")"
  | .outOfMemory => text "command not allowed when used memory > maxmemory"
  | .aofNotEnabled => text "BGREWRITEAOF cannot be issued when AOF is not enabled"

def code : ServerError → Bytes
  | .outOfMemory => text "OOM"
  | _ => text "ERR"

end ServerError

/-- Puts a space in the place of every CR and LF. -/
def sanitise (detail : Bytes) : Bytes := detail.map fun b => if b = 13 ∨ b = 10 then 32 else b

def writeFerrumError (err : ServerError) : Bytes :=
  Encoder.encodeError (err.code ++ 32 :: sanitise err.display)

end FerrumKv
