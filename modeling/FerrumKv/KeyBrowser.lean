import FerrumKv.Form

/-!
# The key browser

What a client reads from the pages of the list of keys, and what they should list together.
-/

namespace FerrumKv.Dashboard

/-- `&all[start..stop]`; out of range it panics. -/
def slice {α : Type} (all : List α) (start stop : ℕ) : Option (List α) :=
  if start ≤ stop ∧ stop ≤ all.length then some ((all.drop start).take (stop - start)) else none

/-- `keys_json` with the bounds of its slice checked; `none` is a panic. -/
def keysJsonChecked (o : Outside) (s : Server) (query : Bytes) : Option (Bytes × Server) :=
  let params := parseQuery query
  let filter := (params.lookup (text "filter")).getD (text "*")
  let limit := ((params.lookup (text "limit")).bind parseU64).getD keysPerPage
  let offset := ((params.lookup (text "offset")).bind parseU64).getD 0
  let all := if s.poisoned then [] else s.engine.scanKeys (o.reading 0).env filter
  let sliceStart := min offset all.length
  let sliceEnd := min (min (offset + limit) (2 ^ 64 - 1)) all.length
  (slice all sliceStart sliceEnd).map fun keys =>
    let items := keyItems o 1 keys s
    (jsonObject
      [("total", Decimal.ofNat all.length),
        ("count", Decimal.ofNat (sliceEnd - sliceStart)),
        ("offset", Decimal.ofNat offset),
        ("keys", text "[" ++ Encoder.trimEndMatches 44 items.1 ++ text "]")], items.2)

def itemKey (item : Json) : Option Bytes :=
  match item.get? (text "key_b64") with
  | some (.string b64) => Base64.decode b64
  | _ => none

def pageKeys (r : Response) : Option (List Bytes) :=
  match (Json.parse r.body).bind (·.get? (text "keys")) with
  | some (.array items) => items.mapM itemKey
  | _ => none

def pageTotal (r : Response) : Option ℕ :=
  match (Json.parse r.body).bind (·.get? (text "total")) with
  | some (.number n) => Decimal.toNat? n
  | _ => none

def served (html : Bytes) (o : ℕ → Outside) (reqs : ℕ → Request) (s : Server) : ℕ → Server
  | 0 => s
  | n + 1 => (route html (o n) (served html o reqs s n) (reqs n)).2

def answers (html : Bytes) (o : ℕ → Outside) (reqs : ℕ → Request) (s : Server) (pages : ℕ) :
    List Response :=
  (List.range pages).map fun n => (route html (o n) (served html o reqs s n) (reqs n)).1

/-- The first requests ask for the pages of `limit` keys that match the filter, one after the
other. -/
structure Browses (filter : Bytes) (limit pages : ℕ) (reqs : ℕ → Request) : Prop where
  method : ∀ n < pages, (reqs n).method = text "GET"
  path : ∀ n < pages, (reqs n).path = text "/api/keys"
  pattern : ∀ n < pages,
    ((fieldOf (reqs n).query "filter").map Utf8.lossy).getD (text "*") = filter
  size : ∀ n < pages, fieldOf (reqs n).query "limit" = some (Decimal.ofNat limit)
  offset : ∀ n < pages, fieldOf (reqs n).query "offset" = some (Decimal.ofNat (n * limit))

/-- Nothing changes meanwhile: the map is walked in one order, and every entry is expired if it is
so at `t`. -/
structure Still (t : ℕ) (o : ℕ → Outside) (s : Server) : Prop where
  order : ∃ walk, ∀ n, ((o n).reading 0).env.iter s.engine.store = walk
  clock : ∀ n i key e, s.engine.store.lookup key = some e →
    e.isExpired ((o n).reading i).env.shared = e.isExpired t

/-- The live keys that match the filter. -/
def wanted (t : ℕ) (s : Server) (filter : Bytes) : List Key :=
  (s.engine.store.entries.filter fun e =>
    !e.2.isExpired t && globMatch filter e.1).map (·.1)

/-- The pages list every one of the keys once, and nothing else. -/
structure Complete (keys : List Key) (pages : List Response) : Prop where
  total : ∀ r ∈ pages, pageTotal r = some keys.length
  once : ∃ listed, pages.mapM pageKeys = some listed ∧ listed.flatten.Nodup
    ∧ ∀ key, key ∈ listed.flatten ↔ key ∈ keys

end FerrumKv.Dashboard
