import FerrumKv.Proofs.Codec
import FerrumKv.Proofs.Logged
import FerrumKv.Proofs.Session

/-!
# Who gets through to the server

The head of a request is read twice: `parse_request` keeps the last line of a name, `header_value`
takes the first. The gate stands between them and the routes. A request without the token is
answered without a look at the server, one from another origin is refused, a reading one takes
nothing from the live keys, and one whose body is cut short stores nothing (`access_gate`).
-/

namespace FerrumKv.Dashboard

open KvEngine

/-! ## What reading and deleting leave -/

def contents (e : KvEngine) : View := fun k => (e.store.lookup k).map fun x => (x.data, x.expireAt)

/-- The engine `e'` is the engine `e` without some entries, whose deadlines satisfy `gone`. -/
structure Thinned (gone : Option ℕ → Prop) (e e' : KvEngine) : Prop where
  eviction : e'.eviction = e.eviction
  entries : ∀ k, contents e' k = contents e k
    ∨ contents e' k = none ∧ ∃ p, contents e k = some p ∧ gone p.2

/-- Of the server only the engine has changed, and it only lost entries. -/
structure Shed (gone : Option ℕ → Prop) (s s' : Server) : Prop where
  engine : Thinned gone s.engine s'.engine
  rest : s' = { s with engine := s'.engine }

section Thinned

variable {gone : Option ℕ → Prop} {e e' e'' : KvEngine}

theorem Thinned.refl (e : KvEngine) : Thinned gone e e := ⟨rfl, fun _ => .inl rfl⟩

theorem Thinned.trans (h : Thinned gone e e') (h' : Thinned gone e' e'') : Thinned gone e e'' := by
  refine ⟨h'.eviction.trans h.eviction, fun k => ?_⟩
  rcases h'.entries k with h2 | ⟨h2, p, hp, hg⟩
  · rw [h2]
    exact h.entries k
  · rcases h.entries k with h1 | ⟨h1, -⟩
    · exact .inr ⟨h2, p, h1 ▸ hp, hg⟩
    · rw [h1] at hp
      simp at hp

theorem Thinned.congr (h : Thinned gone e e') (hs : e''.store = e'.store)
    (hc : e''.eviction = e'.eviction) : Thinned gone e e'' := by
  refine ⟨hc.trans h.eviction, fun k => ?_⟩
  have hk : contents e'' k = contents e' k := by unfold contents; rw [hs]
  rw [hk]
  exact h.entries k

theorem contents_of_lookup {k : Key} {x : ValueEntry} (h : e.store.lookup k = some x) :
    contents e k = some (x.data, x.expireAt) := by
  simp [contents, h]

theorem live_eq_clip (T : ℕ) (e : KvEngine) (k : Key) :
    live T e.store k = clip T (contents e k) := by
  rcases h : e.store.lookup k with _ | x
  · rw [live_of_lookup_none h]
    simp [contents, h, clip]
  · rw [live_of_lookup h, contents_of_lookup h]
    rcases hd : x.expireAt with _ | d
    · rw [shown_of_no_deadline T hd]
      rfl
    · rw [shown_of_deadline T hd]
      rfl

theorem Thinned.live_eq {T : ℕ} (h : Thinned gone e e')
    (hT : ∀ d, gone d → ∃ x, d = some x ∧ x ≤ T) (k : Key) :
    live T e'.store k = live T e.store k := by
  rw [live_eq_clip, live_eq_clip]
  rcases h.entries k with hk | ⟨hk, ⟨v, d⟩, hp, hg⟩
  · rw [hk]
  · obtain ⟨x, hd, hx⟩ := hT d hg
    subst hd
    rw [hk, hp]
    simp [clip, hx]

theorem touchAccess_thinned (e : KvEngine) (r : AccessReading) (key : Key) :
    Thinned gone e (e.touchAccess r key) := by
  rcases hx : e.store.lookup key with _ | x
  · have he : e.touchAccess r key = e := by simp [touchAccess, hx]
    rw [he]
    exact .refl e
  · have he : (e.touchAccess r key).store = e.store.insert key (x.touch r) := by
      simp only [touchAccess, hx]
      rfl
    refine ⟨?_, fun k => .inl ?_⟩
    · simp only [touchAccess, hx]
      rfl
    · by_cases hk : k = key
      · subst hk
        simp [contents, he, hx, ValueEntry.touch]
      · simp [contents, he, AList.lookup_insert_ne hk]

theorem trackRemove_thinned (e : KvEngine) (key : Key)
    (hg : ∀ x, e.store.lookup key = some x → gone x.expireAt) :
    Thinned gone e (e.trackRemove key) := by
  have he : (e.trackRemove key).store = e.store.erase key := rfl
  refine ⟨rfl, fun k => ?_⟩
  by_cases hk : k = key
  · subst hk
    have hnone : contents (e.trackRemove k) k = none := by
      simp [contents, he]
    rcases hx : e.store.lookup k with _ | x
    · left
      rw [hnone]
      simp [contents, hx]
    · exact .inr ⟨hnone, _, contents_of_lookup hx, hg x hx⟩
  · left
    simp [contents, he, AList.lookup_erase_ne hk]

end Thinned

section Calls

variable {gone : Option ℕ → Prop} {env : Env}

theorem gone_of_isExpired (hg : ∀ x ≤ env.now, gone (some x)) {x : ValueEntry}
    (hx : x.isExpired env.now = true) : gone x.expireAt := by
  obtain ⟨d, hd, hle⟩ := isExpired_iff.mp hx
  rw [hd]
  exact hg d hle

theorem dropExpired_thinned (hg : ∀ x ≤ env.now, gone (some x)) {e : KvEngine} {key : Key}
    {x : ValueEntry} (hk : e.store.lookup key = some x) (hx : x.isExpired env.now = true) :
    Thinned gone e (e.dropExpired key) := by
  have h : Thinned gone e (e.trackRemove key) := by
    refine trackRemove_thinned e key fun y hy => ?_
    rw [hk] at hy
    cases hy
    exact gone_of_isExpired hg hx
  exact h.congr rfl rfl

theorem get_thinned (hg : ∀ x ≤ env.now, gone (some x)) (e : KvEngine) (key : Key) :
    Thinned gone e (e.get env key).2 := by
  unfold KvEngine.get fetchLive
  rcases hk : e.store.lookup key with _ | x
  · exact (Thinned.refl e).congr rfl rfl
  · simp only []
    split_ifs with hs hx
    · exact (dropExpired_thinned hg hk hx).congr rfl rfl
    · exact (touchAccess_thinned e (env.access 0) key).congr rfl rfl
    · exact (touchAccess_thinned e (env.access 0) key).congr rfl rfl

theorem ttlMs_thinned (hg : ∀ x ≤ env.now, gone (some x)) (e : KvEngine) (key : Key) :
    Thinned gone e (e.ttlMs env key).2 := by
  unfold ttlMs ttlOf
  rcases hk : e.store.lookup key with _ | x
  · exact Thinned.refl e
  · simp only []
    split_ifs with hs hx
    · exact dropExpired_thinned hg hk hx
    · exact Thinned.refl e
    · exact Thinned.refl e

theorem del_thinned (hg : ∀ d, gone d) (e : KvEngine) (key : Key) :
    Thinned gone e (e.del env key).2 := by
  have h := trackRemove_thinned e key fun x _ => hg x.expireAt
  unfold KvEngine.del KvEngine.remove
  simp only []
  split_ifs
  · exact h.congr rfl rfl
  · exact h

end Calls

section Routes

variable {gone : Option ℕ → Prop} {o : Outside}

theorem Shed.refl (s : Server) : Shed gone s s := ⟨Thinned.refl s.engine, rfl⟩

theorem Shed.trans {s s' s'' : Server} (h : Shed gone s s') (h' : Shed gone s' s'') :
    Shed gone s s'' := by
  refine ⟨h.engine.trans h'.engine, ?_⟩
  rw [h'.rest, h.rest]

theorem Shed.withStore {α : Type} {s : Server} {f : KvEngine → α × KvEngine}
    (h : Thinned gone s.engine (f s.engine).2) : Shed gone s (s.withStore f).2 := by
  unfold Server.withStore Server.locked
  split_ifs
  · exact Shed.refl s
  · exact ⟨h, rfl⟩

section Reads

variable (hg : ∀ i, ∀ x ≤ (o.reading i).env.now, gone (some x))

include hg

theorem shownTtl_shed (s : Server) (i : ℕ) (key : Bytes) :
    Shed gone s (shownTtl o s i key).2 := by
  have h : Shed gone s (s.withStore fun e => e.ttlMs (o.reading i).env key).2 :=
    .withStore (ttlMs_thinned (hg i) s.engine key)
  have hs : (shownTtl o s i key).2 = (s.withStore fun e => e.ttlMs (o.reading i).env key).2 := by
    unfold shownTtl
    split
    · rename_i hr
      rw [hr]
    · rename_i hr
      rw [hr]
  rw [hs]
  exact h

theorem keyItems_shed : ∀ (i : ℕ) (keys : List Bytes) (s : Server),
    Shed gone s (keyItems o i keys s).2
  | _, [], s => Shed.refl s
  | i, key :: keys, s => (shownTtl_shed hg s i key).trans (keyItems_shed (i + 1) keys _)

theorem keyDetail_shed (s : Server) (key : Bytes) : Shed gone s (keyDetail o s key).2 := by
  have h : Shed gone s (s.withStore fun e => e.get (o.reading 0).env key).2 :=
    .withStore (get_thinned (hg 0) s.engine key)
  unfold keyDetail
  split <;> rename_i hr <;> rw [hr] at h
  · exact h.trans (shownTtl_shed hg _ 1 key)
  · exact h
  · exact h

end Reads

theorem deleteKey_shed (hd : ∀ d, gone d) (s : Server) (key : Bytes) :
    Shed gone s (deleteKey o s key).2 := by
  have h : Shed gone s (s.withStore fun e => e.del (o.reading 0).env key).2 :=
    .withStore (del_thinned hd s.engine key)
  unfold deleteKey
  split <;> rename_i hr <;> rw [hr] at h <;> exact h

/-! Without a body there is no field of a form. -/

theorem createKey_nil (s : Server) : (createKey o s []).2 = s := rfl

theorem updateKey_nil (s : Server) (key : Bytes) : (updateKey o s key []).2 = s := rfl

theorem runCommand_nil (s : Server) : (runCommand o s []).2 = s := rfl

section Methods

variable (hg : ∀ i, ∀ x ≤ (o.reading i).env.now, gone (some x)) (s : Server) {req : Request}
  (hd : req.method = text "DELETE" → ∀ d, gone d)
  (hb : req.method = text "POST" ∨ req.method = text "PUT" → req.body = [])

include hg hd hb

theorem routeKey_shed (key : Bytes) : Shed gone s (routeKey o s req key).2 := by
  unfold routeKey
  split_ifs with _ hdel hput
  · exact keyDetail_shed hg s key
  · exact deleteKey_shed (hd hdel) s key
  · rw [hb hput, updateKey_nil]
    exact Shed.refl s
  · exact Shed.refl s

/-- Only `DELETE` removes entries that have not expired, and only a body stores one. -/
theorem route_shed (page : Bytes) : Shed gone s (route page o s req).2 := by
  have hs : Shed gone s s := Shed.refl s
  unfold route
  split_ifs with _ _ _ _ _ _ hpost _ hpost
  · exact hs
  · exact hs
  · exact hs
  · exact hs
  · exact keyItems_shed hg 1 _ s
  · rw [hb (.inl hpost), createKey_nil]
    exact hs
  · exact hs
  · rw [hb (.inl hpost), runCommand_nil]
    exact hs
  · exact hs
  · split
    · exact routeKey_shed hg s hd hb _
    · exact hs

end Methods

end Routes

/-! ## The head of a request -/

/-- The lines of the head after the first one, each as a name with its decoded value. -/
def headFields (bytes : Bytes) : List (Bytes × Bytes) :=
  match findSubsequence bytes headEnd with
  | none => []
  | some pos => (Scan.split 10 (bytes.take pos)).tail.filterMap headerField

/-- The decoded value of a header; of several lines the last one counts. -/
def decoded (bytes name : Bytes) : Option Bytes :=
  ((headFields bytes).reverse.find? fun f => decide (f.1 = name)).map (·.2)

def method (bytes : Bytes) : Option Bytes := (parseRequest bytes).map (·.method)

section Head

variable {buf : Bytes} {pos : ℕ}

theorem findSubsequence_append (h : findSubsequence buf headEnd = some pos) (more : Bytes) :
    findSubsequence (buf ++ more) headEnd = some pos := Scan.find_append more h

theorem take_append_of_found (h : findSubsequence buf headEnd = some pos) (more : Bytes) :
    (buf ++ more).take pos = buf.take pos := by
  have hle : pos + headEnd.length ≤ buf.length := Scan.find_le h
  exact List.take_append_of_le_length (by omega)

theorem decoded_append (h : findSubsequence buf headEnd = some pos) (more name : Bytes) :
    decoded (buf ++ more) name = decoded buf name := by
  have hf : headFields (buf ++ more) = headFields buf := by
    unfold headFields
    rw [findSubsequence_append h, h]
    simp only [take_append_of_found h]
  unfold decoded
  rw [hf]

theorem method_parseHead (block body body' : Bytes) :
    (parseHead block body).map (·.method) = (parseHead block body').map (·.method) := by
  unfold parseHead
  split
  · rfl
  · rw [Option.map_map, Option.map_map]
    rfl

theorem method_append (h : findSubsequence buf headEnd = some pos) (more : Bytes) :
    method (buf ++ more) = method buf := by
  unfold method parseRequest
  rw [findSubsequence_append h, h]
  simp only [take_append_of_found h]
  exact method_parseHead (buf.take pos) _ _

theorem lookup_parseRequest {req : Request} (h : parseRequest buf = some req) (name : Bytes) :
    req.headers.lookup name = decoded buf name := by
  unfold parseRequest at h
  unfold decoded headFields
  rcases hpos : findSubsequence buf headEnd with _ | pos <;> rw [hpos] at h
  · simp at h
  · simp only [] at h ⊢
    unfold parseHead at h
    rcases hl : Scan.split 10 (buf.take pos) with _ | ⟨line, lines⟩ <;> rw [hl] at h
    · simp at h
    · obtain ⟨r, -, rfl⟩ := Option.map_eq_some_iff.mp h
      simp only [parseHeaders, List.tail_cons, lookup_foldl_insert, AList.lookup_empty,
        Option.or_none]

theorem body_parseRequest (hpos : findSubsequence buf headEnd = some pos) {req : Request}
    (h : parseRequest buf = some req) :
    req.body = parseBody buf (pos + 4) (contentLength (buf.take pos)) := by
  unfold parseRequest parseHead at h
  rw [hpos] at h
  simp only [] at h
  split at h
  · simp at h
  · obtain ⟨r, -, rfl⟩ := Option.map_eq_some_iff.mp h
    rfl

end Head

/-! ## Reading a connection -/

/-- What the two loops of `handle_conn` pass on of `all`: a beginning with the whole head, and with
the body that the head declares unless the client closed before. -/
structure Framed (w : Wire) (all buf : Bytes) (pos : ℕ) : Prop where
  beginning : buf <+: all
  head : findSubsequence buf headEnd = some pos
  small : contentLength (buf.take pos) ≤ maxBodyBytes
  body : pos + 4 + contentLength (buf.take pos) ≤ buf.length ∨ w.closes = true ∧ buf = all

section Reading

variable {w : Wire}

/-! The loops look up the length in the head with its end, `parse_request` in the head without it.
The carriage return that the last line keeps is trimmed from its value. -/

theorem trimAscii_concat (v : Bytes) : trimAscii (v ++ [13]) = trimAscii v := by
  unfold trimAscii
  rw [List.dropWhile_append]
  split_ifs with h
  · rw [List.isEmpty_iff] at h
    rw [h]
    rfl
  · rw [List.reverse_append]
    rfl

theorem lineValue_concat (name : Bytes) : ∀ line : Bytes,
    lineValue name (line ++ [13]) = lineValue name line
  | [] => rfl
  | b :: bs => by
    have hs : stripPrefixByte (b :: bs ++ [13]) 13 = stripPrefixByte (b :: bs) 13 ++ [13] := by
      by_cases hb : b = 13 <;> simp [stripPrefixByte, hb]
    unfold lineValue splitByte
    rw [hs, Scan.cut_concat (by decide)]
    rcases Scan.cut 58 (stripPrefixByte (b :: bs) 13) with _ | ⟨k, v⟩
    · rfl
    · simp only [Option.map_some, trimAscii_concat]

theorem headerValue_append_headEnd (block name : Bytes) :
    headerValue (block ++ headEnd) name = headerValue block name := by
  have happ : block ++ headEnd = (block ++ [13]) ++ 10 :: ([13] ++ 10 :: []) := by simp [headEnd]
  obtain ⟨pieces, last, h, h'⟩ := Scan.split_concat (show (13 : UInt8) ≠ 10 by decide) block
  have hend : (Scan.split (10 : UInt8) [13] ++ Scan.split 10 []).findSome?
      (lineValue (asciiLowercase name)) = none := rfl
  unfold headerValue
  rw [happ, Scan.split_append, Scan.split_append, h', h, List.findSome?_append, hend,
    Option.or_none, List.findSome?_append, List.findSome?_append, List.findSome?_singleton,
    List.findSome?_singleton, lineValue_concat]

theorem contentLength_take {buf : Bytes} {pos : ℕ} (h : findSubsequence buf headEnd = some pos) :
    contentLength (buf.take (pos + 4)) = contentLength (buf.take pos) := by
  have hend : buf.take (pos + 4) = buf.take pos ++ headEnd := by
    rw [List.take_add]
    obtain ⟨rest, hrest⟩ := Scan.prefix_drop_of_find h
    rw [← hrest]
    rfl
  unfold contentLength
  rw [hend, headerValue_append_headEnd]

theorem readBody_request {total : ℕ} {buf' : Bytes} : ∀ (chunks : List Bytes) (i : ℕ) (buf : Bytes),
    readBody w total chunks i buf = .request buf' →
      buf <+: buf' ∧ buf' <+: buf ++ chunks.flatten
        ∧ (total ≤ buf'.length ∨ w.closes = true ∧ buf' = buf ++ chunks.flatten)
  | [], i, buf, h => by
    simp only [readBody] at h
    split_ifs at h with hlen _ hclose
    · cases h
      exact ⟨List.prefix_rfl, List.prefix_append _ _, .inr ⟨hclose, by simp⟩⟩
    · cases h
      exact ⟨List.prefix_rfl, List.prefix_append _ _, .inl (by omega)⟩
  | chunk :: chunks, i, buf, h => by
    simp only [readBody] at h
    split_ifs at h with hlen
    · obtain ⟨h1, h2, h3⟩ := readBody_request chunks (i + 1) (buf ++ chunk) h
      rw [List.append_assoc] at h2 h3
      exact ⟨(List.prefix_append buf chunk).trans h1, h2, h3⟩
    · cases h
      exact ⟨List.prefix_rfl, List.prefix_append _ _, .inl (by omega)⟩

theorem readRequest_framed {pos i : ℕ} {chunks : List Bytes} {buf buf' : Bytes}
    (hpos : findSubsequence buf headEnd = some pos)
    (h : readRequest w (pos + 4) chunks i buf = .request buf') :
    Framed w (buf ++ chunks.flatten) buf' pos := by
  unfold readRequest at h
  rw [contentLength_take hpos] at h
  simp only [] at h
  split_ifs at h with hsmall
  obtain ⟨⟨more, rfl⟩, hle, hbody⟩ := readBody_request chunks i buf h
  rw [← take_append_of_found hpos more] at hsmall hbody
  exact ⟨hle, findSubsequence_append hpos more, by omega, hbody⟩

theorem readHead_framed {buf' : Bytes} : ∀ (chunks : List Bytes) (i : ℕ) (buf : Bytes),
    readHead w chunks i buf = .request buf' → ∃ pos, Framed w (buf ++ chunks.flatten) buf' pos
  | [], i, buf, h => by
    simp only [readHead] at h
    rcases hpos : findSubsequence buf headEnd with _ | pos <;> rw [hpos] at h <;> simp only [] at h
    · split_ifs at h
    · split_ifs at h
      exact ⟨pos, readRequest_framed hpos h⟩
  | chunk :: chunks, i, buf, h => by
    simp only [readHead] at h
    rcases hpos : findSubsequence buf headEnd with _ | pos <;> rw [hpos] at h <;> simp only [] at h
    · split_ifs at h
      have ih := readHead_framed chunks (i + 1) (buf ++ chunk) h
      rw [List.append_assoc] at ih
      exact ih
    · split_ifs at h
      exact ⟨pos, readRequest_framed hpos h⟩

theorem receive_framed {buf : Bytes} (h : receive w = .request buf) :
    ∃ pos, Framed w w.bytes buf pos := readHead_framed w.chunks 0 [] h

end Reading

/-! ## The gate -/

/-- The request names the token in its own header or, without that header, as a bearer's. -/
def PresentsToken (token bytes : Bytes) : Prop :=
  decoded bytes (text "x-ferrum-token") = some token
    ∨ decoded bytes (text "x-ferrum-token") = none
      ∧ decoded bytes (text "authorization") = some (text "Bearer " ++ token)

/-- The origin is that of a page the host served, whatever its path. -/
def NamesHost (origin host : Bytes) : Prop :=
  ∃ scheme ∈ [text "http://", text "https://"], ∃ path, origin = scheme ++ (host ++ path)
    ∧ (path = [] ∨ path.head? = some 47) ∧ host ≠ [] ∧ 47 ∉ host

def writingMethods : List Bytes := [text "POST", text "PUT", text "DELETE"]

/-- A writing request of a page that the host did not serve. -/
def CrossOrigin (bytes : Bytes) : Prop :=
  ∃ m ∈ writingMethods, method bytes = some m ∧ ∃ origin,
    decoded bytes (text "origin") = some origin
      ∧ ¬ NamesHost origin ((decoded bytes (text "host")).getD [])

/-- The number of bytes that a length names, in digits and of any size. -/
def declared (value : Bytes) : Option ℕ :=
  Decimal.toNat? (if value.head? = some 43 then value.tail else value)

/-- The bytes end before the length of the body that the head declares. -/
def CutShort (bytes : Bytes) : Prop :=
  ∃ pos value n, findSubsequence bytes headEnd = some pos
    ∧ headerValue (bytes.take pos) (text "content-length") = some value
    ∧ declared value = some n ∧ bytes.length < pos + 4 + n

section Gate

theorem stripStart_eq_some {start bytes rest : Bytes} :
    stripStart start bytes = some rest ↔ bytes = start ++ rest := by
  unfold stripStart
  split_ifs with h
  · obtain ⟨r, rfl⟩ := List.isPrefixOf_iff_prefix.mp h
    simp
  · refine iff_of_false (by simp) ?_
    rintro rfl
    exact h (List.isPrefixOf_iff_prefix.mpr (List.prefix_append start rest))

theorem hostOf_eq_some {rest host : Bytes} :
    (if (Scan.split 47 rest).headD [] = [] then none else some ((Scan.split 47 rest).headD []))
        = some host
      ↔ ∃ path, rest = host ++ path ∧ (path = [] ∨ path.head? = some 47) ∧ host ≠ []
        ∧ 47 ∉ host := by
  have hpiece : (Scan.split 47 rest).headD [] = host ↔ _ := Scan.headD_split_eq_iff
  split_ifs with hnil
  · refine iff_of_false (by simp) ?_
    rintro ⟨path, hr, hend, hne, hmem⟩
    exact hne ((hpiece.mpr ⟨hmem, path, hr, hend⟩).symm.trans hnil)
  · rw [Option.some_inj, hpiece]
    constructor
    · rintro ⟨hmem, path, hr, hend⟩
      exact ⟨path, hr, hend, fun h => hnil ((hpiece.mpr ⟨hmem, path, hr, hend⟩).trans h), hmem⟩
    · rintro ⟨path, hr, hend, -, hmem⟩
      exact ⟨hmem, path, hr, hend⟩

theorem originHost_eq_some {origin host : Bytes} :
    originHost origin = some host ↔ NamesHost origin host := by
  have hscheme : ∀ rest, stripStart (text "http://") (text "https://" ++ rest) = none :=
    fun _ => rfl
  unfold originHost
  constructor
  · intro h
    rcases h1 : stripStart (text "http://") origin with _ | rest
    · rcases h2 : stripStart (text "https://") origin with _ | rest
      · simp [h1, h2] at h
      · simp only [h1, h2, Option.none_or] at h
        obtain ⟨path, rfl, hp⟩ := hostOf_eq_some.mp h
        exact ⟨_, by simp, path, stripStart_eq_some.mp h2, hp⟩
    · simp only [h1, Option.some_or] at h
      obtain ⟨path, rfl, hp⟩ := hostOf_eq_some.mp h
      exact ⟨_, by simp, path, stripStart_eq_some.mp h1, hp⟩
  · rintro ⟨scheme, hs, path, rfl, hp⟩
    have hhost := hostOf_eq_some.mpr ⟨path, rfl, hp⟩
    rcases List.mem_pair.mp hs with rfl | rfl
    · rw [stripStart_eq_some.mpr rfl, Option.some_or]
      exact hhost
    · rw [hscheme, Option.none_or, stripStart_eq_some.mpr rfl]
      exact hhost

variable {d : Config} {buf : Bytes} {req : Request}

theorem provided_eq_some (h : parseRequest buf = some req) (token : Bytes) :
    provided req = some token ↔ PresentsToken token buf := by
  unfold provided PresentsToken
  rw [lookup_parseRequest h, lookup_parseRequest h]
  rcases decoded buf (text "x-ferrum-token") with _ | v
  · rcases decoded buf (text "authorization") with _ | v
    · simp
    · simp [stripStart_eq_some]
  · simp

theorem authorize_of_token {token : Bytes} (ht : d.token = some token)
    (h : parseRequest buf = some req) (hp : ¬ PresentsToken token buf)
    (hpath : req.path ≠ text "/") : authorize req d.token = some tokenRefused := by
  have hprov := (provided_eq_some h token).not.mpr hp
  unfold authorize
  rw [ht]
  simp only [if_neg hpath]
  rcases hv : provided req with _ | v
  · rfl
  · have hne : v ≠ token := fun he => hprov (hv.trans (congrArg some he))
    simp [constantTimeEq_iff, hne]

/-- Without the token the answer does not depend on the server. -/
theorem respond_of_token {token : Bytes} (ht : d.token = some token)
    (hp : ¬ PresentsToken token buf) : ∃ res, ∀ o s, respond d o s buf = (res, s) := by
  unfold respond
  rcases h : parseRequest buf with _ | req
  · exact ⟨_, fun _ _ => rfl⟩
  · by_cases hpath : req.path = text "/"
    · have ha : authorize req d.token = none := by simp [authorize, ht, hpath]
      simp only [ha, route, if_pos hpath]
      by_cases hm : req.method = text "GET"
      · exact ⟨_, fun _ _ => if_pos hm⟩
      · exact ⟨_, fun _ _ => if_neg hm⟩
    · simp only [authorize_of_token ht h hp hpath]
      exact ⟨_, fun _ _ => rfl⟩

theorem respond_of_crossOrigin (ht : d.token = none) (hc : CrossOrigin buf) (o : Outside)
    (s : Server) : respond d o s buf = (originRefused, s) := by
  obtain ⟨m, hm, hmeth, origin, ho, hn⟩ := hc
  obtain ⟨req, h, rfl⟩ := Option.map_eq_some_iff.mp hmeth
  have hmut : mutating req.method = true := by
    have : req.method = text "POST" ∨ req.method = text "PUT" ∨ req.method = text "DELETE" := by
      simpa [writingMethods] using hm
    unfold mutating
    rw [decide_eq_true_iff]
    tauto
  have ha : authorize req d.token = some originRefused := by
    unfold authorize
    rw [ht]
    simp only [lookup_parseRequest h, ho]
    exact if_pos ⟨hmut, originHost_eq_some.not.mpr hn⟩
  unfold respond
  simp only [h, ha]

theorem body_of_cutShort (h : parseRequest buf = some req) (hc : CutShort buf) : req.body = [] := by
  obtain ⟨pos, value, n, hpos, hv, hn, hlen⟩ := hc
  rw [body_parseRequest hpos h]
  have hlength : contentLength (buf.take pos) = if n < 2 ^ 64 then n else 0 := by
    have hp : parseU64 value = if n < 2 ^ 64 then some n else none := by
      unfold parseU64
      unfold declared at hn
      rw [hn]
      rfl
    unfold contentLength
    rw [hv, Option.bind_some, hp]
    split_ifs <;> rfl
  rw [hlength]
  unfold parseBody
  split_ifs with hsmall hle
  · omega
  · rfl
  · simp
  · rfl

/-- What a request leaves that carries nothing to store. -/
theorem respond_shed {gone : Option ℕ → Prop} {o : Outside}
    (hg : ∀ i, ∀ x ≤ (o.reading i).env.now, gone (some x)) (s : Server)
    (hd : method buf = some (text "DELETE") → ∀ d, gone d)
    (hb : ∀ req, parseRequest buf = some req →
      req.method = text "POST" ∨ req.method = text "PUT" → req.body = []) :
    Shed gone s (respond d o s buf).2 := by
  unfold respond
  rcases h : parseRequest buf with _ | req
  · exact Shed.refl s
  · simp only []
    split
    · exact Shed.refl s
    · refine route_shed hg s (fun hm => hd ?_) (hb req h) d.page
      unfold method
      rw [h, Option.map_some, hm]

end Gate

/-! ## Connections -/

def settings (s : Server) : EvictionConfig × Option Bytes × Int64 × ℕ :=
  (s.engine.eviction, s.authPassword, s.slowlogSlowerThanUs, s.slowlogMaxLen)

/-- What is written to a connection whose request is refused for its origin. -/
def refusal (w : Wire) : Option Bytes :=
  match receive w with
  | .nothing => none
  | .status code => some (writeResponse (withStatus code))
  | .request _ => some (writeResponse originRefused)

section Connections

variable {d : Config} {o : Outside} {s : Server} {w : Wire}

theorem Shed.settings_eq {gone : Option ℕ → Prop} {s s' : Server} (h : Shed gone s s') :
    settings s' = settings s := by
  unfold settings
  rw [h.engine.eviction, h.rest]

theorem handleConn_shed {gone : Option ℕ → Prop}
    (h : ∀ buf more pos, buf ++ more = w.bytes → findSubsequence buf headEnd = some pos →
      Shed gone s (respond d o s buf).2) : Shed gone s (handleConn d o s w).2 := by
  unfold handleConn
  rcases hr : receive w with _ | code | buf
  · exact Shed.refl s
  · exact Shed.refl s
  · obtain ⟨pos, hf⟩ := receive_framed hr
    obtain ⟨more, hbytes⟩ := hf.beginning
    exact h buf more pos hbytes hf.head

theorem handleConn_of_token {token : Bytes} (ht : d.token = some token)
    (hp : ¬ PresentsToken token w.bytes) :
    ∃ reply, ∀ o s, handleConn d o s w = (reply, s) := by
  unfold handleConn
  rcases hr : receive w with _ | code | buf
  · exact ⟨_, fun _ _ => rfl⟩
  · exact ⟨_, fun _ _ => rfl⟩
  · obtain ⟨pos, hf⟩ := receive_framed hr
    obtain ⟨more, hbytes⟩ := hf.beginning
    have hp' : ¬ PresentsToken token buf := by
      unfold PresentsToken at hp ⊢
      rw [← hbytes, decoded_append hf.head, decoded_append hf.head] at hp
      exact hp
    obtain ⟨res, hres⟩ := respond_of_token ht hp'
    exact ⟨some (writeResponse res), fun o s => by simp only [hres]⟩

theorem handleConn_of_crossOrigin (ht : d.token = none) (hc : CrossOrigin w.bytes) :
    handleConn d o s w = (refusal w, s) := by
  unfold handleConn refusal
  rcases hr : receive w with _ | code | buf
  · rfl
  · rfl
  · obtain ⟨pos, hf⟩ := receive_framed hr
    obtain ⟨more, hbytes⟩ := hf.beginning
    have hc' : CrossOrigin buf := by
      unfold CrossOrigin at hc ⊢
      rw [← hbytes, method_append hf.head, decoded_append hf.head, decoded_append hf.head] at hc
      exact hc
    simp only [respond_of_crossOrigin ht hc']

theorem handleConn_of_reading {gone : Option ℕ → Prop}
    (hg : ∀ i, ∀ x ≤ (o.reading i).env.now, gone (some x))
    (hm : ∀ m ∈ writingMethods, method w.bytes ≠ some m) : Shed gone s (handleConn d o s w).2 := by
  refine handleConn_shed fun buf more pos hbytes hpos => ?_
  rw [← hbytes, method_append hpos] at hm
  refine respond_shed hg s (fun h => absurd h (hm _ (by simp [writingMethods]))) ?_
  intro req h hpost
  have hmeth : method buf = some req.method := by
    unfold method
    rw [h, Option.map_some]
  rcases hpost with h | h
  · exact absurd (hmeth.trans (congrArg some h)) (hm _ (by simp [writingMethods]))
  · exact absurd (hmeth.trans (congrArg some h)) (hm _ (by simp [writingMethods]))

theorem handleConn_of_cutShort (hc : CutShort w.bytes) :
    Shed (fun _ => True) s (handleConn d o s w).2 := by
  refine handleConn_shed fun buf more pos hbytes hpos => ?_
  have hc' : CutShort buf := by
    obtain ⟨pos', value, n, hpos', hv, hn, hlen⟩ := hc
    rw [← hbytes, findSubsequence_append hpos, Option.some_inj] at hpos'
    subst hpos'
    rw [← hbytes, take_append_of_found hpos] at hv
    rw [← hbytes, List.length_append] at hlen
    exact ⟨pos, value, n, hpos, hv, hn, by omega⟩
  exact respond_shed (fun _ _ _ => trivial) s (fun _ _ => trivial)
    fun req h _ => body_of_cutShort h hc'

/-- The gate of the dashboard, for whatever arrives on a connection. Without the token a client
learns nothing about the server and does nothing to it. A page of another host writes nothing, and
a request that does not write leaves the settings and the keys that are live from then on. A body
that is cut short stores nothing and runs no command. -/
theorem access_gate (d : Config) (w : Wire) :
    (∀ token, d.token = some token → ¬ PresentsToken token w.bytes → ∀ o o' s s',
      (handleConn d o s w).1 = (handleConn d o' s' w).1 ∧ (handleConn d o s w).2 = s)
    ∧ (d.token = none → CrossOrigin w.bytes → ∀ o s, handleConn d o s w = (refusal w, s))
    ∧ ((∀ m ∈ writingMethods, method w.bytes ≠ some m) → ∀ o s,
      settings (handleConn d o s w).2 = settings s
      ∧ ∀ t, (∀ i, (o.reading i).env.now ≤ t) → ∀ k,
        live t (handleConn d o s w).2.engine.store k = live t s.engine.store k)
    ∧ (CutShort w.bytes → ∀ o s,
      (handleConn d o s w).2.totalCommands = s.totalCommands
      ∧ ∀ k, contents (handleConn d o s w).2.engine k = contents s.engine k
        ∨ contents (handleConn d o s w).2.engine k = none) := by
  refine ⟨?_, ?_, ?_, ?_⟩
  · intro token ht hp o o' s s'
    obtain ⟨reply, h⟩ := handleConn_of_token ht hp
    rw [h o s, h o' s']
    exact ⟨rfl, rfl⟩
  · intro ht hc o s
    exact handleConn_of_crossOrigin ht hc
  · intro hm o s
    have hshed : Shed (fun _ => True) s (handleConn d o s w).2 :=
      handleConn_of_reading (fun _ _ _ => trivial) hm
    refine ⟨hshed.settings_eq, fun t ht k => ?_⟩
    have h : Shed (fun x => ∃ y, x = some y ∧ y ≤ t) s (handleConn d o s w).2 :=
      handleConn_of_reading (fun i x hx => ⟨x, rfl, hx.trans (ht i)⟩) hm
    exact h.engine.live_eq (fun _ hx => hx) k
  · intro hc o s
    have h : Shed (fun _ => True) s (handleConn d o s w).2 := handleConn_of_cutShort hc
    refine ⟨by rw [h.rest], fun k => ?_⟩
    rcases h.engine.entries k with hk | ⟨hk, -⟩
    · exact .inl hk
    · exact .inr hk

def whole (bytes : Bytes) : Wire := ⟨[bytes], true, fun _ => false⟩

/-- A form that writes, sent by a page of another host, without the token and with a body that is
three bytes short. -/
def foreignWrite : Bytes :=
  text "POST /api/keys HTTP/1.1\r\nHost: kv\r\nOrigin: http://other\r\n"
    ++ text "Content-Length: 14\r\n\r\nkey=a&value"

def keyList : Bytes := text "GET /api/keys HTTP/1.1\r\nHost: kv\r\n\r\n"

theorem foreignWrite_cutShort : CutShort (whole foreignWrite).bytes :=
  ⟨75, text "14", 14, by decide, by decide, by decide, by decide⟩

theorem foreignWrite_crossOrigin : CrossOrigin (whole foreignWrite).bytes := by
  refine ⟨text "POST", by decide, by decide, text "http://other", by decide, ?_⟩
  exact originHost_eq_some.not.mp (by decide)

theorem access_gate_foreignWrite :
    (∀ o o' s s',
      (handleConn ⟨[], some (text "secret")⟩ o s (whole foreignWrite)).1
        = (handleConn ⟨[], some (text "secret")⟩ o' s' (whole foreignWrite)).1
      ∧ (handleConn ⟨[], some (text "secret")⟩ o s (whole foreignWrite)).2 = s)
    ∧ (∀ o s, handleConn ⟨[], none⟩ o s (whole foreignWrite) = (refusal (whole foreignWrite), s))
    ∧ (∀ o s, settings (handleConn ⟨[], none⟩ o s (whole keyList)).2 = settings s)
    ∧ (∀ o s, (handleConn ⟨[], none⟩ o s (whole foreignWrite)).2.totalCommands = s.totalCommands) :=
  ⟨(access_gate _ _).1 (text "secret") rfl (by unfold PresentsToken; decide),
    (access_gate _ _).2.1 rfl foreignWrite_crossOrigin,
    fun o s => ((access_gate _ _).2.2.1 (by decide) o s).1,
    fun o s => ((access_gate _ _).2.2.2 foreignWrite_cutShort o s).1⟩

end Connections

end FerrumKv.Dashboard
