import FerrumKv.Proofs.Dashboard
import FerrumKv.Proofs.Form
import FerrumKv.Proofs.JsonText

/-!
# Viewing and saving a value

The page of a key shows its value as a JSON string, or in base64 if it is no text. What a JSON
reader takes from the page and a form sends back, percent-encoded, is stored again as it was
(`view_and_save`).
-/

namespace FerrumKv

open KvEngine

/-! ## The size checks -/

def Checked (s : KvEngine) : Prop :=
  ∀ k e, s.store.lookup k = some e → validatePair k e.data = .ok ()

section Checked

variable {env : Env} {cmd : Command} {s₀ a b : KvEngine}

theorem Checked.of_store (h : Checked a) (hs : b.store = a.store) : Checked b := by
  unfold Checked
  rw [hs]
  exact h

theorem Checked.write (h : Checked a) {key : Key} {e : ValueEntry}
    (hs : b.store = a.store.insert key e) (hv : validatePair key e.data = .ok ()) : Checked b := by
  unfold Checked
  rw [hs]
  exact forall_lookup_insert h hv

theorem Checked.remove (h : Checked a) {key : Key} (hs : b.store = a.store.erase key) :
    Checked b := by
  unfold Checked
  rw [hs]
  exact forall_lookup_erase h key

theorem setDeadline_checked (h : Checked a) (key : Key) (d : Option ℕ) :
    Checked (a.setDeadline key d) := by
  unfold setDeadline
  split
  · rename_i e he
    exact h.write rfl (h key e he)
  · exact h

theorem Act.checked (h₀ : Checked s₀) (hact : Act env cmd s₀ a b) (h : Checked a) : Checked b := by
  cases hact with
  | count => exact h
  | touch _ r key =>
    unfold touchAccess
    split
    · rename_i e he
      exact h.write rfl (h key e he)
    · exact h
  | remove _ key => exact h.remove rfl
  | forget _ key => exact h.remove rfl
  | evict _ victim hv => exact (h.of_store (selectVictim_store env a)).remove rfl
  | noVictim _ hv => exact h.of_store (selectVictim_store env a)
  | write _ key value ttl r hv ht => exact h.write rfl hv
  | flush => exact fun k e hl => by cases hl
  | config _ cfg => exact h.of_store (setEvictionConfig_store env a cfg)
  | deadline key absEpochMs => exact (setDeadline_checked h₀ key _).of_store rfl
  | persist key => exact (setDeadline_checked h₀ key none).of_store rfl
  | discard key => exact h₀.remove rfl

theorem exec_checked (env : Env) (cmd : Command) (h : Checked a) :
    Checked (exec env a cmd).2 :=
  (exec_acts env a cmd).preserves (fun _ _ hact => hact.checked h) h

theorem applyRecord_checked (env : Env) (parts : List Bytes) (h : Checked a) :
    Checked (applyRecord env a parts).2 := by
  unfold applyRecord
  split
  · exact h
  · split
    · rename_i key value _
      have hset : Checked (a.set env key value).2 := exec_checked env (.set key value) h
      rcases hr : a.set env key value with ⟨_ | _, s⟩ <;> simpa [hr] using hset
    · exact h
    · exact exec_checked env (.del _) h
    · exact h
    · exact exec_checked env .flushdb h
    · exact h
    · split
      · exact h
      · exact exec_checked env (.expireAtMs _ _) h
    · exact h
    · exact exec_checked env (.persist _) h
    · exact h
    · exact h

theorem replayLoop_checked (env : Env) (len : ℕ) : ∀ (fuel : ℕ) (rest : Bytes) (st : ReplayState),
    Checked st.engine → ∀ st', replayLoop env len fuel rest st = .ok st' → Checked st'.engine
  | 0, rest, st, h, st', hr => by
    cases hr
    exact h
  | fuel + 1, rest, st, h, st', hr => by
    rw [replayLoop] at hr
    split at hr
    · cases hr
      exact h
    · split_ifs at hr <;> cases hr <;> exact h
    · simp only [] at hr
      split at hr
      · exact replayLoop_checked env len fuel _ _ (by exact h) st' hr
      · cases hr
        exact h
    · rename_i record rest' hread
      have happly := applyRecord_checked env record h
      split at hr
      · rename_i engine heq
        rw [heq] at happly
        exact replayLoop_checked env len fuel _ _ happly st' hr
      · cases hr
      · rename_i engine hne heq
        rw [heq] at happly
        exact replayLoop_checked env len fuel _ _ happly st' hr

theorem Started.checked (h : Started a) : Checked a := by
  have hnew : Checked .new := fun k e hl => by cases hl
  rcases h with aof | ⟨h, aof⟩
  · exact hnew.of_store rfl
  · unfold replay at h
    split at h
    · cases h
    · rename_i st hst
      cases h
      exact (replayLoop_checked _ _ _ _ _ hnew st hst).of_store rfl

/-- Commands store what passed the size checks, and nothing else. -/
theorem checked_run (h : Started a) (calls : List Call) : Checked (run a calls) :=
  @Runs.foldl_invariant _ _ Call.step Checked (fun _ c => exec_checked c.env c.cmd) calls a
    h.checked

end Checked

namespace Dashboard

/-! ## The page of a key -/

def valueDetail (value : Bytes) : List (String × Bytes × Json) :=
  if Utf8.valid value then
    [("value", jsonString value, .string value), ("binary", jsonBool false, .bool false)]
  else
    [("value", text "null", .null), ("binary", jsonBool true, .bool true),
      ("value_b64", jsonString (base64Encode value), .string (base64Encode value))]

def detail (key value : Bytes) (ttl : Int64) : List (String × Bytes × Json) :=
  [("key", jsonString (Utf8.lossy key), .string (Utf8.lossy key)),
      ("key_b64", jsonString (base64Encode key), .string (base64Encode key)),
      ("type", jsonString (text "string"), .string (text "string"))]
    ++ valueDetail value
    ++ [("bytes", Decimal.ofNat value.length, .number (Decimal.ofNat value.length)),
      ("ttl_ms", i64ToString ttl, .number (i64ToString ttl))]

theorem text_valueDetail (value : Bytes) :
    ∀ f ∈ valueDetail value, PlainName f.1 ∧ Json.Text f.2.1 f.2.2 := by
  unfold valueDetail
  split_ifs with h
  · simp only [List.forall_mem_cons]
    exact ⟨⟨by decide, text_jsonString h⟩, ⟨by decide, text_jsonBool false⟩, by simp⟩
  · simp only [List.forall_mem_cons]
    exact ⟨⟨by decide, text_null⟩, ⟨by decide, text_jsonBool true⟩,
      ⟨by decide, text_base64 value⟩, by simp⟩

theorem text_detail (key value : Bytes) (ttl : Int64) :
    ∀ f ∈ detail key value ttl, PlainName f.1 ∧ Json.Text f.2.1 f.2.2 := by
  unfold detail
  rw [List.forall_mem_append, List.forall_mem_append]
  refine ⟨⟨?_, text_valueDetail value⟩, ?_⟩
  · simp only [List.forall_mem_cons]
    exact ⟨⟨by decide, text_jsonString (Utf8.valid_lossy key)⟩, ⟨by decide, text_base64 key⟩,
      ⟨by decide, text_jsonString rfl⟩, by simp⟩
  · simp only [List.forall_mem_cons]
    exact ⟨⟨by decide, text_nat _⟩, ⟨by decide, text_i64 ttl⟩, by simp⟩

def page (key value : Bytes) (ttl : Int64) : Json :=
  .object ((detail key value ttl).map fun f => (text f.1, f.2.2))

theorem keyDetail_eq {o : Outside} {s : Server} {key : Bytes} {e : ValueEntry}
    (hp : s.poisoned = false) (hl : s.engine.store.lookup key = some e)
    (hx : e.isExpired (o.reading 0).env.shared = false) :
    ∃ ttl, (keyDetail o s key).1
      = okJson (jsonObject ((detail key e.data ttl).map fun f => (f.1, f.2.1))) := by
  have hget : (s.withStore fun e => e.get (o.reading 0).env key).1 = .ok (some e.data) := by
    simp [Server.withStore, Server.locked, hp, KvEngine.get, hl, hx, Except.mapError]
  unfold keyDetail
  split <;> rename_i after hr <;> rw [hr] at hget <;> cases hget
  refine ⟨(shownTtl o after 1 key).1, ?_⟩
  unfold detail valueDetail valueFields
  simp only []
  split_ifs <;> rfl

/-- The page is JSON, and it is read as what it shows. -/
theorem parse_keyDetail {o : Outside} {s : Server} {key : Bytes} {e : ValueEntry}
    (hp : s.poisoned = false) (hl : s.engine.store.lookup key = some e)
    (hx : e.isExpired (o.reading 0).env.shared = false) :
    ∃ ttl, (keyDetail o s key).1.status = 200
      ∧ Json.parse (keyDetail o s key).1.body = some (page key e.data ttl) := by
  obtain ⟨ttl, hbody⟩ := keyDetail_eq hp hl hx
  rw [hbody]
  exact ⟨ttl, rfl, (text_jsonObject (text_detail key e.data ttl)).parse⟩

theorem get?_page_of_valid {value : Bytes} (h : Utf8.valid value = true) (key : Bytes)
    (ttl : Int64) :
    (page key value ttl).get? (text "binary") = some (.bool false)
      ∧ (page key value ttl).get? (text "value") = some (.string value) := by
  unfold page detail valueDetail
  rw [if_pos h]
  constructor
  · simp +decide [Json.get?]
  · simp +decide [Json.get?]

theorem get?_page_of_not_valid {value : Bytes} (h : ¬ Utf8.valid value = true) (key : Bytes)
    (ttl : Int64) :
    (page key value ttl).get? (text "binary") = some (.bool true)
      ∧ (page key value ttl).get? (text "value_b64") = some (.string (base64Encode value)) := by
  unfold page detail valueDetail
  rw [if_neg h]
  constructor
  · simp +decide [Json.get?]
  · simp +decide [Json.get?]

section Save

variable {name : String} {t encoded : Bytes}

theorem fieldOf_single (hname : ∀ b ∈ text name, isUnreserved b = true) (h : Percent t encoded)
    (other : String) :
    fieldOf (text name ++ 61 :: encoded) other
      = if text name = text other then some t else none := by
  rw [fieldOf, fields_single hname h]
  split_ifs with heq
  · simp [heq]
  · simp [heq]

theorem valid_single (hname : ∀ b ∈ text name, isUnreserved b = true) (h : Percent t encoded) :
    Utf8.valid (text name ++ 61 :: encoded) = true := by
  refine Utf8.valid_of_ascii _ fun b hb => ?_
  rcases List.mem_append.1 hb with hb | hb
  · exact ascii_of_isUnreserved (hname b hb)
  · rcases List.mem_cons.1 hb with rfl | hb
    · decide
    · exact (h.safe b hb).1

theorem updateKey_single {o : Outside} {s : Server} {key value : Bytes}
    (hname : ∀ b ∈ text name, isUnreserved b = true) (hne : text name ≠ text "ttl")
    (h : Percent t encoded)
    (hread : readField (text name ++ 61 :: encoded) "value" = some value)
    (hp : s.poisoned = false) (hmem : s.engine.eviction.maxMemory = 0)
    (hv : validatePair key value = .ok ()) :
    (updateKey o s key (text name ++ 61 :: encoded)).1.status = 200
      ∧ Holds (updateKey o s key (text name ++ 61 :: encoded)).2 key value := by
  have httl : fieldOf (text name ++ 61 :: encoded) "ttl" = none := by
    rw [fieldOf_single hname h, if_neg hne]
  have hform := formBytes_eq (valid_single hname h) (.inr rfl)
  rw [hread] at hform
  have hstored := @storeForm_ok o s hp hmem _ (lookup_ttl httl) key value hv
    (okJson (jsonObject [("ok", jsonBool true)]))
  unfold updateKey
  simp only [hform]
  exact ⟨congrArg Response.status hstored.1, hstored.2.holds⟩

end Save

theorem save_text {o : Outside} {s : Server} {key value encoded : Bytes}
    (hvalid : Utf8.valid value = true) (h : Percent value encoded) (hp : s.poisoned = false)
    (hmem : s.engine.eviction.maxMemory = 0) (hv : validatePair key value = .ok ()) :
    (updateKey o s key (text "value" ++ 61 :: encoded)).1.status = 200
      ∧ Holds (updateKey o s key (text "value" ++ 61 :: encoded)).2 key value := by
  have hname : ∀ b ∈ text "value", isUnreserved b = true := List.all_eq_true.1 rfl
  refine updateKey_single hname (by decide) h ?_ hp hmem hv
  have hb64 : fieldOf (text "value" ++ 61 :: encoded) ("value" ++ "_b64") = none := by
    rw [fieldOf_single hname h, if_neg (by decide)]
  have hplain : fieldOf (text "value" ++ 61 :: encoded) "value" = some value := by
    rw [fieldOf_single hname h, if_pos rfl]
  unfold readField
  rw [hb64, hplain]
  exact congrArg some (Utf8.lossy_of_valid hvalid)

theorem save_base64 {o : Outside} {s : Server} {key value encoded : Bytes}
    (h : Percent (base64Encode value) encoded) (hp : s.poisoned = false)
    (hmem : s.engine.eviction.maxMemory = 0) (hv : validatePair key value = .ok ()) :
    (updateKey o s key (text "value_b64" ++ 61 :: encoded)).1.status = 200
      ∧ Holds (updateKey o s key (text "value_b64" ++ 61 :: encoded)).2 key value := by
  have hname : ∀ b ∈ text "value_b64", isUnreserved b = true := List.all_eq_true.1 rfl
  refine updateKey_single hname (by decide) h ?_ hp hmem hv
  have hb64 : fieldOf (text "value_b64" ++ 61 :: encoded) ("value" ++ "_b64")
      = some (base64Encode value) := by
    rw [fieldOf_single hname h, if_pos (by decide)]
  unfold readField
  rw [hb64]
  simp only [Utf8.lossy_of_valid (Utf8.valid_of_ascii _ (padded_base64Encode value).ascii),
    base64Decode_encode]

/-- A key of an engine without a limit of memory that any commands led to, with a value that has not
expired: its page is JSON, and the value string of the page, or the one in base64 if the page says
that it is binary, percent-encoded as the form of an update, is stored as the same value. -/
theorem view_and_save (start : KvEngine) (hstart : Started start) (calls : List Call) (s : Server)
    (o : Outside) (key : Bytes) (e : ValueEntry) (hengine : s.engine = run start calls)
    (hp : s.poisoned = false) (hmem : s.engine.eviction.maxMemory = 0)
    (hl : s.engine.store.lookup key = some e)
    (hx : e.isExpired (o.reading 0).env.shared = false) :
    (∃ j, (keyDetail o s key).1.status = 200 ∧ Json.parse (keyDetail o s key).1.body = some j
      ∧ ∃ name t, (j.get? (text "binary") = some (.bool false) ∧ name = "value"
            ∨ j.get? (text "binary") = some (.bool true) ∧ name = "value_b64")
          ∧ j.get? (text name) = some (.string t)
          ∧ ∀ encoded, Percent t encoded → ∀ o',
              let saved := updateKey o' (keyDetail o s key).2 key (text name ++ 61 :: encoded)
              saved.1.status = 200 ∧ storedData saved key = some e.data)
      ∧ (∀ t, Utf8.valid t = true → Json.parse (jsonString t) = some (.string t))
      ∧ (∀ x, base64Decode (base64Encode x) = some x)
      ∧ ∀ t encoded, Percent t encoded → Utf8.valid t = true → urlDecode encoded = t := by
  refine ⟨?_, fun t ht => (text_jsonString ht).parse, base64Decode_encode, fun t encoded h ht => ?_⟩
  · obtain ⟨ttl, hstatus, hparse⟩ := parse_keyDetail hp hl hx
    have hshed : Shed (fun _ => True) s (keyDetail o s key).2 :=
      keyDetail_shed (fun _ _ _ => trivial) s key
    have hp' : (keyDetail o s key).2.poisoned = false := by
      rw [hshed.rest]
      exact hp
    have hmem' : (keyDetail o s key).2.engine.eviction.maxMemory = 0 := by
      rw [hshed.engine.eviction]
      exact hmem
    have hv : validatePair key e.data = .ok () := by
      have hchecked := checked_run hstart calls
      rw [← hengine] at hchecked
      exact hchecked key e hl
    refine ⟨_, hstatus, hparse, ?_⟩
    by_cases hvalid : Utf8.valid e.data = true
    · obtain ⟨hbinary, hvalue⟩ := get?_page_of_valid hvalid key ttl
      refine ⟨"value", e.data, .inl ⟨hbinary, rfl⟩, hvalue, fun encoded h o' => ?_⟩
      obtain ⟨hok, hholds⟩ := @save_text o' _ key e.data encoded hvalid h hp' hmem' hv
      exact ⟨hok, storedData_of_holds hholds⟩
    · obtain ⟨hbinary, hvalue⟩ := get?_page_of_not_valid hvalid key ttl
      refine ⟨"value_b64", base64Encode e.data, .inr ⟨hbinary, rfl⟩, hvalue, fun encoded h o' => ?_⟩
      obtain ⟨hok, hholds⟩ := @save_base64 o' _ key e.data encoded h hp' hmem' hv
      exact ⟨hok, storedData_of_holds hholds⟩
  · rw [urlDecode, h.urlBytes, Utf8.lossy_of_valid ht]

/-- A value with a quote, a line break and a byte that is no text, and the page that shows it. -/
theorem view_and_save_binary :
    let s := { Server.new with
      engine := run (startWith none) [⟨Env.steady 0, .set [107] [34, 10, 38, 0xFF]⟩] }
    ∃ j, Json.parse (keyDetail (steadyOutside 0) s [107]).1.body = some j
      ∧ ∃ name t, j.get? (text name) = some (.string t)
          ∧ storedData (updateKey (steadyOutside 1) (keyDetail (steadyOutside 0) s [107]).2 [107]
              (text name ++ 61 :: percentEncode t)) [107] = some [34, 10, 38, 0xFF] := by
  intro s
  obtain ⟨⟨j, -, hparse, name, t, -, hget, hsave⟩, -⟩ := view_and_save _ (.empty none)
    [⟨Env.steady 0, .set [107] [34, 10, 38, 0xFF]⟩] s (steadyOutside 0) [107]
    (.new ((Env.steady 0).access 0) [34, 10, 38, 0xFF]) rfl rfl rfl rfl rfl
  exact ⟨j, hparse, name, t, hget, (hsave _ (percent_percentEncode t) (steadyOutside 1)).2⟩

end Dashboard

end FerrumKv
