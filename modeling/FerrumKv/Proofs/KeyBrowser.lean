import FerrumKv.KeyBrowser
import FerrumKv.Proofs.Form
import FerrumKv.Proofs.JsonText

/-!
# The pages of the key browser

A page shows, as JSON, a window of what `scan_keys` returns (`keysJson_page`), and the windows of
`limit` keys each, from the first on, are all of it (`flatMap_windows`). `scan_keys` stops at 10,000
keys, so the pages are complete if no more than that match (`complete_iff`).
-/

namespace FerrumKv.Dashboard

section Windows

variable {α : Type} {all : List α}

theorem slice_window {offset limit : ℕ} (h : offset < 2 ^ 64) :
    slice all (min offset all.length) (min (min (offset + limit) (2 ^ 64 - 1)) all.length)
      = some ((all.drop (min offset all.length)).take
          (min (min (offset + limit) (2 ^ 64 - 1)) all.length - min offset all.length)) := by
  unfold slice
  rw [if_pos]
  omega

theorem window_eq {offset limit : ℕ} (hall : all.length < 2 ^ 64) :
    (all.drop (min offset all.length)).take
        (min (min (offset + limit) (2 ^ 64 - 1)) all.length - min offset all.length)
      = (all.drop offset).take limit := by
  rcases Nat.le_total offset all.length with hle | hle
  · rw [Nat.min_eq_left hle]
    apply List.take_eq_take_iff.2
    rw [List.length_drop]
    omega
  · rw [Nat.min_eq_right hle, List.drop_length, List.drop_eq_nil_of_le hle, List.take_nil,
      List.take_nil]

theorem flatMap_windows (all : List α) (limit : ℕ) : ∀ pages,
    (List.range pages).flatMap (fun n => (all.drop (n * limit)).take limit)
      = all.take (pages * limit)
  | 0 => by simp
  | pages + 1 => by
    rw [List.range_succ, List.flatMap_append, flatMap_windows all limit pages,
      List.flatMap_singleton, Nat.succ_mul, List.take_add]

end Windows

theorem keysJsonChecked_eq (o : Outside) (s : Server) (query : Bytes) :
    keysJsonChecked o s query = some (keysJson o s query) := by
  have hoffset : (((parseQuery query).lookup (text "offset")).bind parseU64).getD 0 < 2 ^ 64 := by
    rcases (parseQuery query).lookup (text "offset") with _ | value
    · decide
    · rw [Option.bind_some, parseU64]
      rcases Decimal.toNat? _ with _ | n
      · decide
      · rw [Option.bind_some]
        split_ifs with h
        · exact h
        · decide
  unfold keysJsonChecked
  simp only [slice_window hoffset, Option.map_some]
  rfl

theorem mapM_map_some {α β γ : Type} {f : α → β} {p : β → Option γ} {g : α → γ} :
    ∀ {l : List α}, (∀ x ∈ l, p (f x) = some (g x)) → (l.map f).mapM p = some (l.map g)
  | [], _ => rfl
  | x :: l, h => by
    rw [List.forall_mem_cons] at h
    rw [List.map_cons, List.mapM_cons, h.1, mapM_map_some h.2]
    rfl

/-! ## The list of a page -/

def itemFields (row : Bytes × Int64) : List (String × Bytes × Json) :=
  [("key", if Utf8.valid row.1 then jsonString row.1 else text "null",
      if Utf8.valid row.1 then .string row.1 else .null),
    ("key_b64", jsonString (base64Encode row.1), .string (base64Encode row.1)),
    ("binary_key", jsonBool (!Utf8.valid row.1), .bool (!Utf8.valid row.1)),
    ("type", jsonString (text "string"), .string (text "string")),
    ("ttl_ms", i64ToString row.2, .number (i64ToString row.2))]

/-- An element of the list, and what it is read as. -/
def item (row : Bytes × Int64) : Bytes × Json :=
  (jsonObject ((itemFields row).map fun f => (f.1, f.2.1)),
    .object ((itemFields row).map fun f => (text f.1, f.2.2)))

theorem text_item (row : Bytes × Int64) : Json.Text (item row).1 (item row).2 := by
  refine text_jsonObject ?_
  unfold itemFields
  simp only [List.forall_mem_cons]
  refine ⟨⟨by decide, ?_⟩, ⟨by decide, text_base64 row.1⟩, ⟨by decide, text_jsonBool _⟩,
    ⟨by decide, text_jsonString rfl⟩, ⟨by decide, text_i64 row.2⟩, by simp⟩
  split_ifs with h
  · exact text_jsonString h
  · exact text_null

theorem itemKey_item (row : Bytes × Int64) : itemKey (item row).2 = some row.1 := by
  have hget : (item row).2.get? (text "key_b64") = some (.string (base64Encode row.1)) := by
    unfold item itemFields
    simp +decide [Json.get?]
  unfold itemKey
  rw [hget]
  simp only [base64Encode_eq, Base64.decode_encode]

theorem keyItem_eq (row : Bytes × Int64) : keyItem row.1 row.2 = (item row).1 ++ [44] := rfl

theorem item_closed (row : Bytes × Int64) : ∃ inner, (item row).1 = inner ++ [125] := ⟨_, rfl⟩

/-- The loop leaves a comma after the last element. -/
theorem items_eq (row : Bytes × Int64) : ∀ rows : List (Bytes × Int64), ∃ front,
    (row :: rows).flatMap (fun r => keyItem r.1 r.2) = front ++ [125, 44]
      ∧ Json.joined ((row :: rows).map item) = front ++ [125]
  | [] => by
    obtain ⟨inner, hinner⟩ := item_closed row
    refine ⟨inner, ?_, ?_⟩
    · simp [keyItem_eq, hinner]
    · simp [Json.joined, hinner]
  | row' :: rows => by
    obtain ⟨front, hitems, hjoined⟩ := items_eq row' rows
    refine ⟨(item row).1 ++ 44 :: front, ?_, ?_⟩
    · rw [List.flatMap_cons, hitems, keyItem_eq]
      simp
    · rw [List.map_cons, List.map_cons, Json.joined_cons_cons, ← List.map_cons, hjoined]
      simp

theorem trimEndMatches_items (rows : List (Bytes × Int64)) :
    Encoder.trimEndMatches 44 (rows.flatMap fun r => keyItem r.1 r.2)
      = Json.joined (rows.map item) := by
  rcases rows with _ | ⟨row, rows⟩
  · rfl
  · obtain ⟨front, hitems, hjoined⟩ := items_eq row rows
    rw [hitems, hjoined]
    simp [Encoder.trimEndMatches]

def browserFields (total offset : ℕ) (rows : List (Bytes × Int64)) :
    List (String × Bytes × Json) :=
  [("total", Decimal.ofNat total, .number (Decimal.ofNat total)),
    ("count", Decimal.ofNat rows.length, .number (Decimal.ofNat rows.length)),
    ("offset", Decimal.ofNat offset, .number (Decimal.ofNat offset)),
    ("keys", 91 :: (Json.joined (rows.map item) ++ [93]), .array ((rows.map item).map (·.2)))]

def browserPage (total offset : ℕ) (rows : List (Bytes × Int64)) : Json :=
  .object ((browserFields total offset rows).map fun f => (text f.1, f.2.2))

theorem text_browserPage (total offset : ℕ) (rows : List (Bytes × Int64)) :
    Json.Text (jsonObject ((browserFields total offset rows).map fun f => (f.1, f.2.1)))
      (browserPage total offset rows) := by
  refine text_jsonObject ?_
  unfold browserFields
  simp only [List.forall_mem_cons]
  refine ⟨⟨by decide, text_nat _⟩, ⟨by decide, text_nat _⟩, ⟨by decide, text_nat _⟩,
    ⟨by decide, Json.text_array ?_⟩, by simp⟩
  intro e he
  obtain ⟨row, -, rfl⟩ := List.mem_map.1 he
  exact text_item row

section Page

variable {r : Response} {total offset : ℕ} {rows : List (Bytes × Int64)}

theorem pageTotal_eq (h : Json.parse r.body = some (browserPage total offset rows)) :
    pageTotal r = some total := by
  have hget : (browserPage total offset rows).get? (text "total")
      = some (.number (Decimal.ofNat total)) := by
    unfold browserPage browserFields
    simp +decide [Json.get?]
  unfold pageTotal
  rw [h, Option.bind_some, hget]
  exact Decimal.toNat?_ofNat total

theorem pageKeys_eq (h : Json.parse r.body = some (browserPage total offset rows)) :
    pageKeys r = some (rows.map (·.1)) := by
  have hget : (browserPage total offset rows).get? (text "keys")
      = some (.array ((rows.map item).map (·.2))) := by
    unfold browserPage browserFields
    simp +decide [Json.get?]
  unfold pageKeys
  rw [h, Option.bind_some, hget]
  simp only [List.map_map]
  exact mapM_map_some fun row _ => itemKey_item row

end Page

section Answer

variable {o : Outside} {s : Server}

theorem shownTtl_live {i : ℕ} {key : Bytes} {e : ValueEntry}
    (hl : s.engine.store.lookup key = some e)
    (hx : e.isExpired (o.reading i).env.shared = false) : (shownTtl o s i key).2 = s := by
  unfold shownTtl Server.withStore Server.locked
  split_ifs with hp
  · rfl
  · simp only [KvEngine.ttlMs, hl, hx, if_false, Except.mapError, Bool.false_eq_true]
    rcases ttlStatus (o.reading i).env.shared e with _ | _ | ms <;> rfl

theorem keyItems_live : ∀ (keys : List Bytes) (i : ℕ),
    (∀ key ∈ keys, ∃ e, s.engine.store.lookup key = some e
      ∧ ∀ j, e.isExpired (o.reading j).env.shared = false) →
    ∃ rows : List (Bytes × Int64), rows.map (·.1) = keys
      ∧ keyItems o i keys s = (rows.flatMap fun r => keyItem r.1 r.2, s)
  | [], i, _ => ⟨[], rfl, rfl⟩
  | key :: keys, i, h => by
    rw [List.forall_mem_cons] at h
    obtain ⟨⟨e, hl, hx⟩, hkeys⟩ := h
    obtain ⟨rows, hrows, hitems⟩ := keyItems_live keys (i + 1) hkeys
    refine ⟨(key, (shownTtl o s i key).1) :: rows, by rw [List.map_cons, hrows], ?_⟩
    rw [keyItems]
    simp only [shownTtl_live hl (hx i), hitems, List.flatMap_cons]

theorem parseU64_ofNat {n : ℕ} (h : n < 2 ^ 64) : parseU64 (Decimal.ofNat n) = some n := by
  have hsign : (Decimal.ofNat n).head? ≠ some 43 := by
    intro hhead
    have hdigit := Decimal.isDigit_of_mem_ofNat (List.mem_of_head? hhead)
    exact absurd hdigit (by decide)
  rw [parseU64, if_neg hsign, Decimal.toNat?_ofNat, Option.bind_some, if_pos h]

theorem lookup_number {query : Bytes} {name : String} (hname : ∀ b ∈ text name, b < 0x80) {n : ℕ}
    (h : fieldOf query name = some (Decimal.ofNat n)) (hn : n < 2 ^ 64) :
    ((parseQuery query).lookup (text name)).bind parseU64 = some n := by
  rw [parseQuery_lookup query hname, h, Option.map_some,
    Utf8.lossy_of_valid (Utf8.valid_of_ascii _ (ascii_ofNat n)), Option.bind_some,
    parseU64_ofNat hn]

def found (o : Outside) (s : Server) (filter : Bytes) : List Key :=
  if s.poisoned then [] else s.engine.scanKeys (o.reading 0).env filter

theorem length_found_le (o : Outside) (s : Server) (filter : Bytes) :
    (found o s filter).length ≤ scanKeysLimit := by
  unfold found KvEngine.scanKeys
  split_ifs
  · exact Nat.zero_le _
  · exact List.length_take_le _ _

/-- A page is JSON, and it shows its window of the keys found. -/
theorem keysJson_page {query filter : Bytes} {limit offset : ℕ}
    (hfilter : ((fieldOf query "filter").map Utf8.lossy).getD (text "*") = filter)
    (hlimit : fieldOf query "limit" = some (Decimal.ofNat limit)) (hl : limit < 2 ^ 64)
    (hoffset : fieldOf query "offset" = some (Decimal.ofNat offset)) (ho : offset < 2 ^ 64)
    (hlive : ∀ key ∈ found o s filter, ∃ e, s.engine.store.lookup key = some e
      ∧ ∀ j, e.isExpired (o.reading j).env.shared = false) :
    ∃ rows : List (Bytes × Int64),
      rows.map (·.1) = ((found o s filter).drop offset).take limit
        ∧ (keysJson o s query).2 = s
        ∧ Json.parse (keysJson o s query).1
          = some (browserPage (found o s filter).length offset rows) := by
  have hfound : (if s.poisoned then []
      else s.engine.scanKeys (o.reading 0).env
        (((parseQuery query).lookup (text "filter")).getD (text "*"))) = found o s filter := by
    rw [parseQuery_lookup query (Utf8.ascii_of_all rfl), hfilter]
    rfl
  have hlen : (found o s filter).length < 2 ^ 64 :=
    Nat.lt_of_le_of_lt (length_found_le o s filter) (by decide)
  obtain ⟨rows, hrows, hitems⟩ := @keyItems_live o s
    (((found o s filter).drop (min offset (found o s filter).length)).take
      (min (min (offset + limit) (2 ^ 64 - 1)) (found o s filter).length
        - min offset (found o s filter).length)) 1
    fun key hkey => hlive key (List.mem_of_mem_drop (List.mem_of_mem_take hkey))
  have hcount : min (min (offset + limit) (2 ^ 64 - 1)) (found o s filter).length
      - min offset (found o s filter).length = rows.length := by
    have := congrArg List.length hrows
    rw [List.length_map, List.length_take, List.length_drop] at this
    omega
  rw [hcount] at hitems
  have hkeys : keysJson o s query
      = (jsonObject ((browserFields (found o s filter).length offset rows).map
          fun f => (f.1, f.2.1)), s) := by
    unfold keysJson
    simp only [hfound, lookup_number (Utf8.ascii_of_all rfl) hlimit hl,
      lookup_number (Utf8.ascii_of_all rfl) hoffset ho, Option.getD_some, hitems,
      trimEndMatches_items, hcount]
    rfl
  refine ⟨rows, hrows.trans (window_eq hlen), ?_, ?_⟩
  · rw [hkeys]
  · rw [hkeys]
    exact (text_browserPage _ _ rows).parse

end Answer

section Browsing

variable {html : Bytes} {t : ℕ} {o : ℕ → Outside} {s : Server} {reqs : ℕ → Request}
  {filter : Bytes} {limit pages : ℕ}

theorem route_keys (html : Bytes) (o : Outside) (s : Server) {req : Request}
    (hmethod : req.method = text "GET") (hpath : req.path = text "/api/keys") :
    route html o s req = (okJson (keysJson o s req.query).1, (keysJson o s req.query).2) := by
  unfold route
  rw [hpath, hmethod, if_neg (by decide), if_neg (by decide), if_pos rfl, if_pos rfl]

theorem mem_wanted {key : Key} :
    key ∈ wanted t s filter ↔ ∃ e, s.engine.store.lookup key = some e ∧ e.isExpired t = false
      ∧ globMatch filter key = true := by
  unfold wanted
  simp only [List.mem_map, List.mem_filter, Bool.and_eq_true, Bool.not_eq_true', Sigma.exists]
  constructor
  · rintro ⟨k, e, ⟨hmem, hx, hglob⟩, rfl⟩
    exact ⟨e, AList.mem_lookup_iff.2 hmem, hx, hglob⟩
  · rintro ⟨e, hl, hx, hglob⟩
    exact ⟨key, e, ⟨AList.mem_lookup_iff.1 hl, hx, hglob⟩, rfl⟩

theorem nodup_wanted : (wanted t s filter).Nodup :=
  (List.filter_sublist.map _).nodup s.engine.store.nodupKeys

def scanCap (s : Server) : ℕ := if s.poisoned then 0 else scanKeysLimit

/-- All pages are taken from one list, the keys that are wanted up to the limit of `scan_keys`. -/
theorem Still.found (h : Still t o s) (filter : Bytes) :
    ∃ keys : List Key, keys.Perm (wanted t s filter)
      ∧ ∀ n, found (o n) s filter = keys.take (scanCap s) := by
  obtain ⟨walk, hwalk⟩ := h.order
  have hperm : walk.Perm s.engine.store.entries := by
    rw [← hwalk 0]
    exact ((o 0).reading 0).env.iter_perm s.engine.store
  refine ⟨(walk.filter fun e => !e.2.isExpired t && globMatch filter e.1).map (·.1),
    (hperm.filter _).map _, fun n => ?_⟩
  unfold Dashboard.found scanCap
  split_ifs with hp
  · rw [List.take_zero]
  · unfold KvEngine.scanKeys
    rw [hwalk n]
    congr 2
    refine List.filter_congr fun e he => ?_
    rw [h.clock n 0 e.1 e.2 (AList.mem_lookup_iff.2 (hperm.mem_iff.1 he))]

variable (hb : Browses filter limit pages reqs) (hs : Still t o s) (hl : limit < 2 ^ 64)
  (ho : ∀ n < pages, n * limit < 2 ^ 64)

include hb hs hl ho

theorem route_page {keys : List Key} (hkeys : keys.Perm (wanted t s filter))
    (hfound : ∀ n, found (o n) s filter = keys.take (scanCap s)) {n : ℕ} (hn : n < pages) :
    (route html (o n) s (reqs n)).2 = s
      ∧ pageTotal (route html (o n) s (reqs n)).1 = some (keys.take (scanCap s)).length
      ∧ pageKeys (route html (o n) s (reqs n)).1
        = some (((keys.take (scanCap s)).drop (n * limit)).take limit) := by
  have hlive : ∀ key ∈ found (o n) s filter, ∃ e, s.engine.store.lookup key = some e
      ∧ ∀ j, e.isExpired ((o n).reading j).env.shared = false := by
    intro key hkey
    rw [hfound] at hkey
    obtain ⟨e, he, hx, -⟩ := mem_wanted.1 (hkeys.mem_iff.1 (List.mem_of_mem_take hkey))
    refine ⟨e, he, fun j => ?_⟩
    rw [hs.clock n j key e he, hx]
  obtain ⟨rows, hrows, hstate, hparse⟩ := keysJson_page (hb.pattern n hn) (hb.size n hn) hl
    (hb.offset n hn) (ho n hn) hlive
  rw [hfound] at hrows hparse
  rw [route_keys html (o n) s (hb.method n hn) (hb.path n hn)]
  refine ⟨hstate, pageTotal_eq hparse, ?_⟩
  rw [← hrows]
  exact pageKeys_eq hparse

theorem served_eq (html : Bytes) : ∀ n ≤ pages, served html o reqs s n = s
  | 0, _ => rfl
  | n + 1, hn => by
    obtain ⟨keys, hkeys, hfound⟩ := hs.found filter
    rw [served, served_eq html n (Nat.le_of_succ_le hn)]
    exact (route_page hb hs hl ho hkeys hfound hn).1

/-- The pages are complete if `scan_keys` does not stop before the last key. -/
theorem complete_iff (html : Bytes) (henough : (wanted t s filter).length ≤ pages * limit) :
    Complete (wanted t s filter) (answers html o reqs s pages)
      ↔ (wanted t s filter).length ≤ scanCap s := by
  obtain ⟨keys, hkeys, hfound⟩ := hs.found filter
  have hpage : ∀ n < pages,
      pageTotal (route html (o n) (served html o reqs s n) (reqs n)).1
          = some (keys.take (scanCap s)).length
        ∧ pageKeys (route html (o n) (served html o reqs s n) (reqs n)).1
          = some (((keys.take (scanCap s)).drop (n * limit)).take limit) := by
    intro n hn
    rw [served_eq hb hs hl ho html n (Nat.le_of_lt hn)]
    exact (route_page hb hs hl ho hkeys hfound hn).2
  have hlen := hkeys.length_eq
  constructor
  · intro h
    rcases Nat.eq_zero_or_pos pages with rfl | hpos
    · rw [Nat.zero_mul] at henough
      exact Nat.le_trans henough (Nat.zero_le _)
    · have htotal := h.total _ (List.mem_map_of_mem (List.mem_range.2 hpos))
      rw [(hpage 0 hpos).1, List.length_take, Option.some_inj] at htotal
      omega
  · intro h
    have htake : keys.take (scanCap s) = keys := List.take_of_length_le (by omega)
    rw [htake] at hpage
    refine ⟨?_, (List.range pages).map fun n => (keys.drop (n * limit)).take limit, ?_, ?_⟩
    · intro r hr
      obtain ⟨n, hn, rfl⟩ := List.mem_map.1 hr
      rw [(hpage n (List.mem_range.1 hn)).1, hlen]
    · exact mapM_map_some fun n hn => (hpage n (List.mem_range.1 hn)).2
    · rw [← List.flatMap_def, flatMap_windows, List.take_of_length_le (by omega)]
      exact ⟨hkeys.nodup_iff.2 nodup_wanted, fun key => hkeys.mem_iff⟩

end Browsing

/-- For a keyspace that does not change, and requests for as many pages as its keys need, with
offsets and a limit that fit into 64 bits. -/
theorem browser_complete_iff (html : Bytes) (o : ℕ → Outside) (s : Server) (reqs : ℕ → Request)
    (t : ℕ) (filter : Bytes) (limit pages : ℕ) (hb : Browses filter limit pages reqs)
    (hs : Still t o s) (hl : limit < 2 ^ 64) (ho : ∀ n < pages, n * limit < 2 ^ 64)
    (henough : (wanted t s filter).length ≤ pages * limit) :
    (Complete (wanted t s filter) (answers html o reqs s pages)
        ↔ (wanted t s filter).length ≤ if s.poisoned then 0 else scanKeysLimit)
      ∧ (wanted t s filter).Nodup
      ∧ (∀ key, key ∈ wanted t s filter ↔ ∃ e, s.engine.store.lookup key = some e
          ∧ e.isExpired t = false ∧ globMatch filter key = true)
      ∧ ∀ o s query, keysJsonChecked o s query = some (keysJson o s query) :=
  ⟨complete_iff hb hs hl ho html henough, nodup_wanted, fun _ => mem_wanted, keysJsonChecked_eq⟩

/-! ## A keyspace of any size -/

def pageRequest (limit n : ℕ) : Request where
  method := text "GET"
  path := text "/api/keys"
  query := text "filter=*&limit=" ++ Decimal.ofNat limit ++ text "&offset="
    ++ Decimal.ofNat (n * limit)
  headers := ∅
  body := []

def numberedKey (i : ℕ) : Bytes := [UInt8.ofNat (i / 256), UInt8.ofNat (i % 256)]

/-- A server whose keys were set one after the other. -/
def crowded (n : ℕ) : Server :=
  { Server.new with
    engine := run (KvEngine.startWith none)
      ((List.range n).map fun i => ⟨Env.steady 0, .set (numberedKey i) []⟩) }

theorem numberedKey_inj {i j : ℕ} (hi : i < 65536) (hj : j < 65536)
    (h : numberedKey i = numberedKey j) : i = j := by
  simp only [numberedKey, List.cons.injEq, and_true, ← UInt8.toNat_inj, UInt8.toNat_ofNat'] at h
  omega

theorem crowded_entries : ∀ n ≤ 65536, (crowded n).engine.eviction.maxMemory = 0
      ∧ (crowded n).engine.store.entries = ((List.range n).map fun i =>
          (⟨numberedKey i, .new ((Env.steady 0).access 0) []⟩ : Σ _ : Key, ValueEntry)).reverse
  | 0, _ => ⟨rfl, rfl⟩
  | n + 1, hn => by
    obtain ⟨hmax, hentries⟩ := crowded_entries n (Nat.le_of_succ_le hn)
    have hstep : (crowded (n + 1)).engine
        = ((crowded n).engine.set (Env.steady 0) (numberedKey n) []).2 := by
      unfold crowded run
      rw [List.range_succ, List.map_append, List.foldl_append]
      rfl
    have hnew : numberedKey n ∉ (crowded n).engine.store := by
      rw [AList.mem_keys, AList.keys, List.keys, hentries]
      simp only [List.map_reverse, List.mem_reverse, List.map_map, List.mem_map, List.mem_range,
        Function.comp_apply, not_exists, not_and]
      intro i hi heq
      have := numberedKey_inj (by omega) (by omega) heq
      omega
    rw [hstep, set_of_zero hmax rfl]
    refine ⟨hmax, ?_⟩
    rw [List.range_succ, List.map_append, List.reverse_append, ← hentries]
    exact AList.entries_insert_of_notMem hnew

theorem length_wanted_crowded {n : ℕ} (hn : n ≤ 65536) :
    (wanted 0 (crowded n) (text "*")).length = n := by
  unfold wanted
  rw [(crowded_entries n hn).2, List.filter_eq_self.2, List.length_map, List.length_reverse,
    List.length_map, List.length_range]
  intro e he
  obtain ⟨i, -, rfl⟩ := List.mem_map.1 (List.mem_reverse.1 he)
  rfl

theorem still_crowded (n : ℕ) : Still 0 (fun _ => steadyOutside 0) (crowded n) :=
  ⟨⟨_, fun _ => rfl⟩, fun _ _ _ _ _ => rfl⟩

/-- Three keys on pages of two. -/
theorem browser_complete_three :
    Complete (wanted 0 (crowded 3) (text "*"))
      (answers [] (fun _ => steadyOutside 0) (pageRequest 2) (crowded 3) 2) :=
  (browser_complete_iff [] (fun _ => steadyOutside 0) (crowded 3) (pageRequest 2) 0 (text "*") 2 2
    ⟨by decide, by decide, by decide, by decide, by decide⟩
    (still_crowded 3) (by decide) (by decide) (by decide)).1.2 (by decide)

/-- The key behind the first 10,000 is on no page. -/
theorem browser_stops_at_limit :
    (wanted 0 (crowded 10001) (text "*")).length = 10001
      ∧ ¬ Complete (wanted 0 (crowded 10001) (text "*"))
        (answers [] (fun _ => steadyOutside 0) (pageRequest 5000) (crowded 10001) 3) := by
  have hlen := @length_wanted_crowded 10001 (by decide)
  refine ⟨hlen, fun h => ?_⟩
  have hbrowse : Browses (text "*") 5000 3 (pageRequest 5000) :=
    ⟨by decide, by decide, by decide, by decide, by decide⟩
  have hle := (complete_iff hbrowse (still_crowded 10001) (by decide) (by decide) [] (by omega)).1 h
  rw [hlen] at hle
  exact absurd hle (by decide)

end FerrumKv.Dashboard
