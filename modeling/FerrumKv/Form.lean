import FerrumKv.Dashboard
import FerrumKv.Lib.Base64
import FerrumKv.Lib.Json

/-!
# What a form of the dashboard denotes

The bytes that a form gives to its names, without the texts that the handlers make of them, and what
a request that writes a key should do with them.
-/

namespace FerrumKv.Dashboard

/-- The bytes that a percent-encoder may leave as they are: letters, digits and `-_.!~*'()`. -/
def isUnreserved (b : UInt8) : Bool :=
  decide (48 ≤ b ∧ b ≤ 57) || decide (65 ≤ b ∧ b ≤ 90) || decide (97 ≤ b ∧ b ≤ 122)
    || (text "-_.!~*'()").contains b

/-- `encoded` is `t` with every byte as a percent sign and two hexadecimal digits, or as it is if it
is unreserved. -/
inductive Percent : Bytes → Bytes → Prop
  | nil : Percent [] []
  | plain {b : UInt8} {t encoded : Bytes} (hb : isUnreserved b = true) (h : Percent t encoded) :
      Percent (b :: t) (b :: encoded)
  | escape {b hi lo : UInt8} {x y : ℕ} {t encoded : Bytes} (hx : Json.hexValue hi = some x)
      (hy : Json.hexValue lo = some y) (hb : b.toNat = x * 16 + y) (h : Percent t encoded) :
      Percent (b :: t) (37 :: hi :: lo :: encoded)

/-- Every byte as a percent sign and two digits. -/
def percentEncode (t : Bytes) : Bytes :=
  t.flatMap fun b => [37, hexLower (b / 16), hexLower (b % 16)]

def fields (body : Bytes) : List (Bytes × Bytes) :=
  ((Scan.split 38 body).filter (· ≠ [])).map fun pair =>
    (urlBytes (formPair pair).1, urlBytes (formPair pair).2)

/-- What a form gives to a name; the last pair of the name decides. -/
def fieldOf (body : Bytes) (name : String) : Option Bytes :=
  ((fields body).reverse.find? (·.1 = text name)).map (·.2)

def withoutBlanks (t : Bytes) : Bytes := t.filter fun b => !isAsciiWhitespace b

/-- The bytes that are sent for a name: those of the field in base64, if there is one, otherwise
those of the field itself; `absent` without both. -/
def sent (body : Bytes) (name : String) (absent : Option Bytes) : Option Bytes :=
  match fieldOf body (name ++ "_b64") with
  | some b64 => Base64.decode (withoutBlanks b64)
  | none => (fieldOf body name).or absent

/-- What the handlers read for a name in a form in UTF-8. -/
def readField (body : Bytes) (name : String) : Option Bytes :=
  match fieldOf body (name ++ "_b64") with
  | some b64 => base64Decode (Utf8.lossy b64)
  | none => (fieldOf body name).map Utf8.lossy

/-- The requests that write a key: the new one of the form, or the one of the path. -/
inductive Write
  | create
  | update (raw : Bytes)

namespace Write

def Asks (req : Request) : Write → Prop
  | .create => req.method = text "POST" ∧ req.path = text "/api/keys"
  | .update raw => req.method = text "PUT" ∧ req.path = keysPath ++ raw

def key (body : Bytes) : Write → Option Bytes
  | .create => sent body "key" none
  | .update raw => some (urlBytes raw)

/-- A new key without a value is given the empty one. -/
def value (body : Bytes) : Write → Option Bytes
  | .create => sent body "value" (some [])
  | .update _ => sent body "value" none

/-- The key and the value that the handler of a request takes. -/
def takesKey (body : Bytes) : Write → Option Bytes
  | .create => readField body "key"
  | .update raw => some (urlDecode raw)

def takesValue (body : Bytes) : Write → Option Bytes
  | .create => some ((readField body "value").getD [])
  | .update _ => readField body "value"

/-- The handler takes this key and this value, and they pass the checks of a write. -/
structure Accepts (w : Write) (body key value : Bytes) : Prop where
  utf8 : Utf8.valid body = true
  takesKey : w.takesKey body = some key
  takesValue : w.takesValue body = some value
  valid : KvEngine.validatePair key value = .ok ()

/-- The key is a text, unless it is given in base64. -/
def KeyIsText (body : Bytes) : Write → Prop
  | .create =>
    fieldOf body "key_b64" = none → ∀ t, fieldOf body "key" = some t → Utf8.valid t = true
  | .update raw => Utf8.valid (urlBytes raw) = true

end Write

/-- The fields in base64 are padded as RFC 4648 asks for. -/
def PaddedFields (body : Bytes) : Prop :=
  ∀ name ∈ ["key_b64", "value_b64"], ∀ t, fieldOf body name = some t →
    Base64.Padded (withoutBlanks t)

/-- The value is a text, unless it is given in base64. -/
def ValueIsText (body : Bytes) : Prop :=
  fieldOf body "value_b64" = none → ∀ t, fieldOf body "value" = some t → Utf8.valid t = true

/-- The key holds the value, with no deadline. -/
def Holds (s : Server) (key value : Bytes) : Prop :=
  ∃ e, s.engine.store.lookup key = some e ∧ e.data = value ∧ e.expireAt = none

/-- The outcome of a request that writes a key stores what was sent, or is an error that changes no
key; and it is an error if a field in base64 is not padded as it should be. -/
structure Faithful (w : Write) (body : Bytes) (s : Server) (x : Response × Server) : Prop where
  stores : (400 ≤ x.1.status ∧ x.2.engine.store = s.engine.store)
    ∨ x.1.status = 200 ∧ ∃ key value, w.key body = some key ∧ w.value body = some value
        ∧ Holds x.2 key value
  refuses : ¬ PaddedFields body → 400 ≤ x.1.status

end FerrumKv.Dashboard
