import FerrumKv.Lib.Scan
import FerrumKv.Session

/-!
# The dashboard

The HTTP server of the dashboard: how a connection is read, how the bytes become a request, who is
let through, and what the routes do to the server. A text of the source is its bytes.
-/

namespace FerrumKv.Dashboard

/-- A map of texts; a name that is inserted again has its last value. -/
abbrev TextMap := AList fun _ : Bytes => Bytes

structure Request where
  method : Bytes
  path : Bytes
  query : Bytes
  headers : TextMap
  body : Bytes

structure Response where
  status : ℕ
  contentType : String
  body : Bytes
  deriving DecidableEq, Repr

/-- What the handling of a request reads from outside: the `i`-th call of the engine reads
`reading i`, `now_ms` gives `nowMs`, and the numbers of `info_json` that are no integers are given
as their texts. -/
structure Outside where
  debug : DebugText
  reading : ℕ → Reading
  nowMs : Int64
  uptimeSec : ℕ
  hitRatio : ℕ → ℕ → Bytes
  aheAlpha : Bytes
  aheHitRatio : Bytes

def keysPerPage : ℕ := 50

def maxHeaderBytes : ℕ := 64 * 1024

def maxBodyBytes : ℕ := 1024 * 1024

/-! ## Texts -/

def isAsciiWhitespace (b : UInt8) : Bool :=
  decide (b = 32 ∨ b = 9 ∨ b = 10 ∨ b = 12 ∨ b = 13)

def trimAscii (slice : Bytes) : Bytes :=
  ((slice.dropWhile isAsciiWhitespace).reverse.dropWhile isAsciiWhitespace).reverse

def stripPrefixByte (slice : Bytes) (byte : UInt8) : Bytes :=
  if slice.head? = some byte then slice.tail else slice

def splitByte (slice : Bytes) (needle : UInt8) : Option (Bytes × Bytes) := Scan.cut needle slice

def findSubsequence (hay needle : Bytes) : Option ℕ :=
  if needle = [] then none else Scan.find needle hay

def stripStart (start bytes : Bytes) : Option Bytes :=
  if start.isPrefixOf bytes then some (bytes.drop start.length) else none

def hexDigit (b : UInt8) : Option UInt8 :=
  if 48 ≤ b ∧ b ≤ 57 then some (b - 48)
  else if 97 ≤ b ∧ b ≤ 102 then some (b - 87)
  else if 65 ≤ b ∧ b ≤ 70 then some (b - 55)
  else none

/-- The loop of `url_decode`; a percent sign that no two digits follow stands for itself. -/
def urlBytes : Bytes → Bytes
  | [] => []
  | 43 :: rest => 32 :: urlBytes rest
  | 37 :: h :: l :: rest =>
    match hexDigit h, hexDigit l with
    | some hi, some lo => (hi * 16 + lo) :: urlBytes rest
    | _, _ => 37 :: urlBytes (h :: l :: rest)
  | b :: rest => b :: urlBytes rest

def urlDecode (s : Bytes) : Bytes := Utf8.lossy (urlBytes s)

def formPair (pair : Bytes) : Bytes × Bytes :=
  match Scan.cut 61 pair with
  | some kv => kv
  | none => (pair, [])

def parseQuery (q : Bytes) : TextMap :=
  (Scan.split 38 q).foldl (fun form pair =>
    if pair = [] then form
    else form.insert (urlDecode (formPair pair).1) (urlDecode (formPair pair).2)) ∅

/-- The form in a body; a body that is no text is an empty one. -/
def parseForm (body : Bytes) : TextMap := parseQuery (if Utf8.valid body then body else [])

/-- A digit of a number in hexadecimal. -/
def hexLower (n : UInt8) : UInt8 := if n < 10 then n + 48 else n + 87

/-- A character inside a JSON text. The characters that are escaped are single bytes. -/
def jsonEscape (b : UInt8) : Bytes :=
  if b = 34 then text "\\\""
  else if b = 92 then text "\\\\"
  else if b = 10 then text "\\n"
  else if b = 13 then text "\\r"
  else if b = 9 then text "\\t"
  else if b < 32 then text "\\u00" ++ [hexLower (b / 16), hexLower (b % 16)]
  else [b]

def jsonString (s : Bytes) : Bytes := 34 :: (s.flatMap jsonEscape ++ [34])

def jsonBool (b : Bool) : Bytes := if b then text "true" else text "false"

def jsonObject (fields : List (String × Bytes)) : Bytes :=
  text "\x7b"
    ++ List.intercalate (text ",") (fields.map fun f => text "\"" ++ text f.1 ++ text "\":" ++ f.2)
    ++ text "\x7d"

/-! ## Base64 -/

def base64Table : Bytes := text "ABCDEFGHIJKLMNOPQRSTUVWXYZabcdefghijklmnopqrstuvwxyz0123456789+/"

def base64Digit (n shift : ℕ) : UInt8 := base64Table.getD (n / 2 ^ shift % 64) 0

def base64Encode : Bytes → Bytes
  | [] => []
  | [a] =>
    let n := a.toNat * 2 ^ 16
    [base64Digit n 18, base64Digit n 12, 61, 61]
  | [a, b] =>
    let n := a.toNat * 2 ^ 16 + b.toNat * 2 ^ 8
    [base64Digit n 18, base64Digit n 12, base64Digit n 6, 61]
  | a :: b :: c :: rest =>
    let n := a.toNat * 2 ^ 16 + b.toNat * 2 ^ 8 + c.toNat
    base64Digit n 18 :: base64Digit n 12 :: base64Digit n 6 :: base64Digit n 0 :: base64Encode rest

def sextet (c : UInt8) : Option ℕ :=
  if 65 ≤ c ∧ c ≤ 90 then some (c.toNat - 65)
  else if 97 ≤ c ∧ c ≤ 122 then some (c.toNat - 97 + 26)
  else if 48 ≤ c ∧ c ≤ 57 then some (c.toNat - 48 + 52)
  else if c = 43 then some 62
  else if c = 47 then some 63
  else none

/-- The number of one group of four digits; padding counts as zero. -/
def groupValue (chunk : Bytes) : Option ℕ :=
  chunk.foldlM (fun n b => (if b = 61 then some 0 else sextet b).map (n * 64 + ·)) 0

def base64Groups : Bytes → Option Bytes
  | a :: b :: c :: d :: rest =>
    let pad := [a, b, c, d].count 61
    if 2 < pad then none
    else
      match groupValue [a, b, c, d], base64Groups rest with
      | some n, some out =>
        some (UInt8.ofNat (n / 2 ^ 16) :: (if pad < 2 then [UInt8.ofNat (n / 2 ^ 8)] else [])
          ++ (if pad < 1 then [UInt8.ofNat n] else []) ++ out)
      | _, _ => none
  | _ => some []

def base64Decode (s : Bytes) : Option Bytes :=
  let bytes := s.filter fun b => !isAsciiWhitespace b
  if bytes = [] then some []
  else if bytes.length % 4 ≠ 0 then none
  else base64Groups bytes

/-- A field of a form as bytes; the variant in base64 comes first. -/
def formBytes (form : TextMap) (field : String) : Option Bytes :=
  match form.lookup (text field ++ text "_b64") with
  | some b64 => base64Decode b64
  | none => form.lookup (text field)

/-! ## Commands of the console -/

/-- The loop of `tokenize_command`: the rest of the line, whether it is inside quotes and inside a
token, the token so far and the ones before it. -/
def tokenize : Bytes → Bool → Bool → Bytes → List Bytes → Option (List Bytes)
  | [], inQuotes, inToken, cur, argv =>
    if inQuotes then none else some (if inToken then argv ++ [cur] else argv)
  | 34 :: rest, true, inToken, cur, argv => tokenize rest false inToken cur argv
  | 92 :: c :: rest, true, inToken, cur, argv => tokenize rest true inToken (cur ++ [c]) argv
  | b :: rest, true, inToken, cur, argv => tokenize rest true inToken (cur ++ [b]) argv
  | 34 :: rest, false, _, cur, argv => tokenize rest true true cur argv
  | b :: rest, false, inToken, cur, argv =>
    if b = 32 ∨ b = 9 ∨ b = 13 ∨ b = 10 then
      if inToken then tokenize rest false false [] (argv ++ [cur])
      else tokenize rest false false cur argv
    else tokenize rest false true (cur ++ [b]) argv

def tokenizeCommand (line : Bytes) : Option (List Bytes) := tokenize line false false [] []

/-- A line of a reply and what follows its line end. -/
def readLine (buf : Bytes) : Bytes × Bytes :=
  (Utf8.lossy (buf.takeWhile (· ≠ 13)), (buf.dropWhile (· ≠ 13)).drop 2)

/-- As many elements as an array has; an element that is not there ends it. -/
def decodeEach (one : Bytes → Option (Bytes × Bytes)) : ℕ → Bytes → Option (List Bytes × Bytes)
  | 0, buf => some ([], buf)
  | n + 1, buf =>
    match one buf with
    | none => none
    | some (part, rest) => (decodeEach one n rest).map fun r => (part :: r.1, r.2)

/-- One value of a reply as a text, with what follows it. Every array inside another takes at least
a byte, so the fuel of `decode_resp` is enough. -/
def decodeOne : ℕ → Bytes → Option (Bytes × Bytes)
  | 0, _ | _, [] => none
  | fuel + 1, marker :: buf =>
    let line := readLine buf
    if marker = 43 ∨ marker = 58 then some line
    else if marker = 45 then some (text "(error) " ++ line.1, line.2)
    else if marker = 36 then
      match parseI64 line.1 with
      | none => none
      | some len =>
        if len < 0 then some (text "(nil)", line.2)
        else
          let n := len.toInt.toNat
          if line.2.length < n + 2 then none
          else some (Utf8.lossy (line.2.take n), line.2.drop (n + 2))
    else if marker = 42 then
      match parseI64 line.1 with
      | none => none
      | some count =>
        if count < 0 then some (text "(empty array)", line.2)
        else
          (decodeEach (decodeOne fuel) count.toInt.toNat line.2).map fun r =>
            (List.intercalate (text "\n") r.1, r.2)
    else none

def decodeResp (buf : Bytes) : Bytes :=
  match decodeOne (buf.length + 1) buf with
  | some r => r.1
  | none => Utf8.lossy buf

/-! ## Responses -/

def statusText (status : ℕ) : String :=
  match status with
  | 200 => "OK"
  | 204 => "No Content"
  | 400 => "Bad Request"
  | 401 => "Unauthorized"
  | 403 => "Forbidden"
  | 404 => "Not Found"
  | 405 => "Method Not Allowed"
  | 408 => "Request Timeout"
  | 413 => "Payload Too Large"
  | 500 => "Internal Server Error"
  | _ => "Unknown"

def json : String := "application/json; charset=utf-8"

def okJson (body : Bytes) : Response := ⟨200, json, body⟩

def textHtml (body : Bytes) : Response := ⟨200, "text/html; charset=utf-8", body⟩

def withStatus (status : ℕ) : Response :=
  ⟨status, "text/plain; charset=utf-8", text (statusText status)⟩

def jsonError (status : ℕ) (msg : Bytes) : Response :=
  ⟨status, json, jsonObject [("error", jsonString msg)]⟩

def headLine (name value : String) : Bytes := text name ++ text ": " ++ text value ++ crlf

def writeResponse (resp : Response) : Bytes :=
  text "HTTP/1.1 " ++ Decimal.ofNat resp.status ++ text " " ++ text (statusText resp.status) ++ crlf
    ++ headLine "Content-Type" resp.contentType
    ++ text "Content-Length: " ++ Decimal.ofNat resp.body.length ++ crlf
    ++ headLine "X-Content-Type-Options" "nosniff"
    ++ headLine "X-Frame-Options" "DENY"
    ++ headLine "Referrer-Policy" "no-referrer"
    ++ headLine "Cache-Control" "no-store"
    ++ headLine "Connection" "close" ++ crlf
    ++ resp.body

/-! ## Requests -/

def headEnd : Bytes := [13, 10, 13, 10]

/-- The value of a line of the head that has the lower-cased name `name`. -/
def lineValue (name line : Bytes) : Option Bytes :=
  match splitByte (stripPrefixByte line 13) 58 with
  | some (k, v) =>
    if eqIgnoreAsciiCase (trimAscii k) name then some (Utf8.lossy (trimAscii v)) else none
  | none => none

/-- The first line of the name decides. -/
def headerValue (block name : Bytes) : Option Bytes :=
  (Scan.split 10 block).findSome? (lineValue (asciiLowercase name))

def contentLength (block : Bytes) : ℕ :=
  ((headerValue block (text "content-length")).bind parseU64).getD 0

/-- The name and the value `parse_request` takes from a line of the head. -/
def headerField (line : Bytes) : Option (Bytes × Bytes) :=
  match splitByte line 58 with
  | none => none
  | some (k, v) =>
    let name := asciiLowercase (Utf8.lossy (trimAscii k))
    if name = [] then none
    else some (name, Utf8.lossy (trimAscii (stripPrefixByte (trimAscii v) 13)))

/-- The last line of a name decides. -/
def parseHeaders (lines : List Bytes) : TextMap :=
  (lines.filterMap headerField).foldl (fun headers f => headers.insert f.1 f.2) ∅

def requestLine (line : Bytes) : Option (Bytes × Bytes) :=
  match Scan.split 32 line with
  | method :: target :: _ => some (Utf8.lossy method, Utf8.lossy target)
  | _ => none

def splitTarget (target : Bytes) : Bytes × Bytes := (Scan.cut 63 target).getD (target, [])

def parseHead (block body : Bytes) : Option Request :=
  match Scan.split 10 block with
  | [] => none
  | line :: lines =>
    (requestLine line).map fun r =>
      { method := r.1
        path := (splitTarget r.2).1
        query := (splitTarget r.2).2
        headers := parseHeaders lines
        body := body }

/-- What follows the head, if as much as the head declares is there. -/
def parseBody (buf : Bytes) (headerEnd length : ℕ) : Bytes :=
  if headerEnd + length ≤ buf.length then (buf.drop headerEnd).take length else []

def parseRequest (buf : Bytes) : Option Request :=
  match findSubsequence buf headEnd with
  | none => none
  | some pos => parseHead (buf.take pos) (parseBody buf (pos + 4) (contentLength (buf.take pos)))

/-! ## Access control -/

def originHost (origin : Bytes) : Option Bytes :=
  match (stripStart (text "http://") origin).or (stripStart (text "https://") origin) with
  | none => none
  | some rest =>
    let host := (Scan.split 47 rest).headD []
    if host = [] then none else some host

/-- What a request presents in the place of the token. -/
def provided (req : Request) : Option Bytes :=
  (req.headers.lookup (text "x-ferrum-token")).or
    ((req.headers.lookup (text "authorization")).bind (stripStart (text "Bearer ")))

/-- The methods that are held to the origin of the page. -/
def mutating (method : Bytes) : Bool :=
  decide (method = text "POST" ∨ method = text "PUT" ∨ method = text "DELETE"
    ∨ method = text "PATCH")

def tokenRefused : Response := jsonError 401 (text "missing or invalid dashboard token")

def originRefused : Response := jsonError 403 (text "cross-origin request rejected")

def authorize (req : Request) (token : Option Bytes) : Option Response :=
  match token with
  | some expected =>
    if req.path = text "/" then none
    else
      match provided req with
      | some p => if Server.constantTimeEq p expected then none else some tokenRefused
      | none => some tokenRefused
  | none =>
    match req.headers.lookup (text "origin") with
    | some origin =>
      if mutating req.method = true
          ∧ originHost origin ≠ some ((req.headers.lookup (text "host")).getD []) then
        some originRefused
      else none
    | none => none

section Handlers

variable (o : Outside) (s : Server)

def failed (e : ServerError) : Response := jsonError 500 e.display

def infoJson : Bytes :=
  let total := if s.poisoned then 0 else s.engine.dbsize (o.reading 0).env
  let stats := if s.poisoned then (0, 0) else s.engine.expireStats (o.reading 1).env
  jsonObject
    [("version", jsonString (text version)),
      ("uptime_sec", Decimal.ofNat o.uptimeSec),
      ("keys", Decimal.ofNat total),
      ("used_memory", Decimal.ofNat s.engine.usedMemory),
      ("max_memory", Decimal.ofNat s.engine.eviction.maxMemory),
      ("eviction_policy", jsonString (text s.engine.eviction.policy.name)),
      ("hits", Decimal.ofNat s.engine.hits),
      ("misses", Decimal.ofNat s.engine.misses),
      ("hit_ratio", o.hitRatio s.engine.hits s.engine.misses),
      ("ahe_alpha", o.aheAlpha),
      ("ahe_hit_ratio", o.aheHitRatio),
      ("expires", Decimal.ofNat stats.1),
      ("avg_ttl_ms", Decimal.ofNat stats.2)]

/-- The remaining lifetime that is shown for a key, as the `i`-th call of the engine. -/
def shownTtl (i : ℕ) (key : Bytes) : Int64 × Server :=
  match s.withStore fun e => e.ttlMs (o.reading i).env key with
  | (.ok (.millis ms), s) => (ms, s)
  | (_, s) => (-1, s)

/-- A key in the list of keys, with the comma that follows it. -/
def keyItem (key : Bytes) (ttl : Int64) : Bytes :=
  jsonObject
    [("key", if Utf8.valid key then jsonString key else text "null"),
      ("key_b64", jsonString (base64Encode key)),
      ("binary_key", jsonBool (!Utf8.valid key)),
      ("type", jsonString (text "string")),
      ("ttl_ms", i64ToString ttl)] ++ text ","

/-- The loop of `keys_json`. -/
def keyItems (o : Outside) : ℕ → List Bytes → Server → Bytes × Server
  | _, [], s => ([], s)
  | i, key :: keys, s =>
    let ttl := shownTtl o s i key
    let rest := keyItems o (i + 1) keys ttl.2
    (keyItem key ttl.1 ++ rest.1, rest.2)

def keysJson (query : Bytes) : Bytes × Server :=
  let params := parseQuery query
  let filter := (params.lookup (text "filter")).getD (text "*")
  let limit := ((params.lookup (text "limit")).bind parseU64).getD keysPerPage
  let offset := ((params.lookup (text "offset")).bind parseU64).getD 0
  let all := if s.poisoned then [] else s.engine.scanKeys (o.reading 0).env filter
  let sliceStart := min offset all.length
  let sliceEnd := min (min (offset + limit) (2 ^ 64 - 1)) all.length
  let items := keyItems o 1 ((all.drop sliceStart).take (sliceEnd - sliceStart)) s
  (jsonObject
    [("total", Decimal.ofNat all.length),
      ("count", Decimal.ofNat (sliceEnd - sliceStart)),
      ("offset", Decimal.ofNat offset),
      ("keys", text "[" ++ Encoder.trimEndMatches 44 items.1 ++ text "]")], items.2)

/-- A value as a text, or in base64 if it is none. -/
def valueFields (value : Bytes) : List (String × Bytes) :=
  if Utf8.valid value then [("value", jsonString value), ("binary", jsonBool false)]
  else
    [("value", text "null"), ("binary", jsonBool true),
      ("value_b64", jsonString (base64Encode value))]

def keyDetail (key : Bytes) : Response × Server :=
  match s.withStore fun e => e.get (o.reading 0).env key with
  | (.ok (some value), s) =>
    let ttl := shownTtl o s 1 key
    (okJson (jsonObject
      ([("key", jsonString (Utf8.lossy key)), ("key_b64", jsonString (base64Encode key)),
          ("type", jsonString (text "string"))]
        ++ valueFields value
        ++ [("bytes", Decimal.ofNat value.length), ("ttl_ms", i64ToString ttl.1)])), ttl.2)
  | (.ok none, s) => (jsonError 404 (text "key not found"), s)
  | (.error e, s) => (failed e, s)

def saturatingMul (a b : Int64) : Int64 :=
  Int64.ofInt (max (-2 ^ 63) (min (a.toInt * b.toInt) (2 ^ 63 - 1)))

/-- A positive number of seconds sets a deadline and zero takes it away; the result is not looked
at. -/
def applyTtl (key ttlStr : Bytes) : Server :=
  match parseI64 ttlStr with
  | some ttl =>
    if 0 < ttl then
      (s.withStore fun e => e.expireAtMs (o.reading 1).env key
        (saturatingAdd o.nowMs (saturatingMul ttl 1000))).2
    else if ttl = 0 then (s.withStore fun e => e.persist (o.reading 1).env key).2
    else s
  | none => s

/-- Stores a value and applies the lifetime of the form. -/
def storeForm (form : TextMap) (key value : Bytes) (done : Response) : Response × Server :=
  match s.locked (.ok ()) fun e => e.set (o.reading 0).env key value with
  | (.error e, s) => (failed e, s)
  | (.ok _, s) =>
    match form.lookup (text "ttl") with
    | some ttlStr => (done, applyTtl o s key ttlStr)
    | none => (done, s)

def createKey (body : Bytes) : Response × Server :=
  let form := parseForm body
  match formBytes form "key" with
  | some key =>
    if key = [] then (jsonError 400 (text "missing 'key'"), s)
    else
      storeForm o s form key ((formBytes form "value").getD [])
        (okJson (jsonObject [("ok", jsonBool true), ("key", jsonString (Utf8.lossy key))]))
  | none => (jsonError 400 (text "missing 'key'"), s)

def updateKey (key body : Bytes) : Response × Server :=
  let form := parseForm body
  match formBytes form "value" with
  | none => (jsonError 400 (text "missing 'value'"), s)
  | some value => storeForm o s form key value (okJson (jsonObject [("ok", jsonBool true)]))

def deleteKey (key : Bytes) : Response × Server :=
  match s.withStore fun e => e.del (o.reading 0).env key with
  | (.ok deleted, s) => (okJson (jsonObject [("deleted", jsonBool deleted)]), s)
  | (.error e, s) => (failed e, s)

/-- Executes a decoded command, for no client, and shows its reply. -/
def runParsed (cmd : Protocol.Command) : Response × Server :=
  let reply := s.executeCommand { o.reading 0 with client := none } .resp2 cmd
  (okJson (jsonObject [("ok", jsonBool true), ("response", jsonString (decodeResp reply.1))]),
    reply.2)

/-- The frame of a command line has an element, so that the parser does not panic on it. -/
def runCommand (body : Bytes) : Response × Server :=
  match (parseForm body).lookup (text "command") with
  | none => (jsonError 400 (text "missing 'command'"), s)
  | some command =>
    match tokenizeCommand command with
    | none | some [] => (jsonError 400 (text "empty command"), s)
    | some argv =>
      match Protocol.parseFrame (o.reading 0).env.float (encodeCommand argv) with
      | .ok (.complete cmd _) => runParsed o s cmd
      | .ok (.invalid error _) => (jsonError 400 (ServerError.ofCommand error).display, s)
      | .ok .incomplete => (jsonError 400 (text "incomplete command"), s)
      | .error (.fault e) => (jsonError 400 (ServerError.parseError (e.message o.debug)).display, s)
      | .error .panic => (jsonError 400 [], s)

end Handlers

def keysPath : Bytes := text "/api/keys/"

def routeKey (o : Outside) (s : Server) (req : Request) (key : Bytes) : Response × Server :=
  if req.method = text "GET" then keyDetail o s key
  else if req.method = text "DELETE" then deleteKey o s key
  else if req.method = text "POST" ∨ req.method = text "PUT" then updateKey o s key req.body
  else (withStatus 405, s)

/-- The routes; `page` is the page at `/`. -/
def route (page : Bytes) (o : Outside) (s : Server) (req : Request) : Response × Server :=
  if req.path = text "/" then
    if req.method = text "GET" then (textHtml page, s) else (withStatus 405, s)
  else if req.path = text "/api/info" then
    if req.method = text "GET" then (okJson (infoJson o s), s) else (withStatus 405, s)
  else if req.path = text "/api/keys" then
    if req.method = text "GET" then
      let keys := keysJson o s req.query
      (okJson keys.1, keys.2)
    else if req.method = text "POST" then createKey o s req.body
    else (withStatus 405, s)
  else if req.path = text "/api/command" then
    if req.method = text "POST" then runCommand o s req.body else (withStatus 405, s)
  else
    match stripStart keysPath req.path with
    | some raw => routeKey o s req (urlDecode raw)
    | none => (withStatus 404, s)

/-! ## Connections -/

/-- What arrives on a connection: the chunks that are read, whether the client then closes its side
(otherwise the next read fails or times out), and whether a shutdown is seen at the `i`-th look at
it. -/
structure Wire where
  chunks : List Bytes
  closes : Bool
  triggered : ℕ → Bool

def Wire.bytes (w : Wire) : Bytes := w.chunks.flatten

/-- How the reading of a connection ends: with nothing to answer, with a status, or with the bytes
of a request. -/
inductive Received
  | nothing
  | status (code : ℕ)
  | request (buf : Bytes)
  deriving DecidableEq, Repr

/-- The second loop of `handle_conn`, which reads until `total` bytes are there. -/
def readBody (w : Wire) (total : ℕ) : List Bytes → ℕ → Bytes → Received
  | [], i, buf =>
    if buf.length < total then
      if w.triggered i then .nothing else if w.closes then .request buf else .nothing
    else .request buf
  | chunk :: chunks, i, buf =>
    if buf.length < total then
      if w.triggered i then .nothing else readBody w total chunks (i + 1) (buf ++ chunk)
    else .request buf

/-- What follows when the head of `buf` ends before `headerEnd`. -/
def readRequest (w : Wire) (headerEnd : ℕ) (chunks : List Bytes) (i : ℕ) (buf : Bytes) : Received :=
  let length := contentLength (buf.take headerEnd)
  if maxBodyBytes < length then .status 413 else readBody w (headerEnd + length) chunks i buf

/-- The first loop of `handle_conn`, which reads until the head is there. -/
def readHead (w : Wire) : List Bytes → ℕ → Bytes → Received
  | [], i, buf =>
    if w.triggered i then .nothing
    else
      match findSubsequence buf headEnd with
      | some pos => readRequest w (pos + 4) [] (i + 1) buf
      | none => if maxHeaderBytes < buf.length then .status 400 else .nothing
  | chunk :: chunks, i, buf =>
    if w.triggered i then .nothing
    else
      match findSubsequence buf headEnd with
      | some pos => readRequest w (pos + 4) (chunk :: chunks) (i + 1) buf
      | none =>
        if maxHeaderBytes < buf.length then .status 400
        else readHead w chunks (i + 1) (buf ++ chunk)

def receive (w : Wire) : Received := readHead w w.chunks 0 []

/-- The dashboard of a server: its page and its token. -/
structure Config where
  page : Bytes
  token : Option Bytes

def respond (d : Config) (o : Outside) (s : Server) (buf : Bytes) : Response × Server :=
  match parseRequest buf with
  | none => (withStatus 400, s)
  | some req =>
    match authorize req d.token with
    | some denied => (denied, s)
    | none => route d.page o s req

/-- One connection: what is written to it, if anything, and the server after it. -/
def handleConn (d : Config) (o : Outside) (s : Server) (w : Wire) : Option Bytes × Server :=
  match receive w with
  | .nothing => (none, s)
  | .status code => (some (writeResponse (withStatus code)), s)
  | .request buf =>
    let r := respond d o s buf
    (some (writeResponse r.1), r.2)

end FerrumKv.Dashboard
