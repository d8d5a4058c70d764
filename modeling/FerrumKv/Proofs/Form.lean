import FerrumKv.Proofs.Codec
import FerrumKv.Proofs.Session
import FerrumKv.Proofs.WriteGuard

/-!
# What the dashboard stores

A request that writes a key stores what its form denotes, or fails and changes nothing, just when
the handler refuses the form, or the fields in base64 are padded as RFC 4648 asks for and the others
are UTF-8 (`writes_faithful`). Otherwise it can store something else and answer with success, such
as the empty value for a `value_b64` that cannot be decoded (`undecodable_value_stored`).
-/

namespace FerrumKv.Dashboard

open KvEngine

section Write

variable {o : Outside} {s : Server} {body : Bytes}

/-- The key was stored with the value and no deadline, and nothing else has changed in the store. -/
def Stored (s s' : Server) (key value : Bytes) : Prop :=
  ∃ e, s'.engine.store = s.engine.store.insert key e ∧ e.data = value ∧ e.expireAt = none

theorem Stored.holds {s' : Server} {key value : Bytes} (h : Stored s s' key value) :
    Holds s' key value := by
  obtain ⟨e, hst, hd, hx⟩ := h
  exact ⟨e, by rw [hst, AList.lookup_insert], hd, hx⟩

theorem Stored.only {s' : Server} {key value key' value' : Bytes}
    (hempty : s.engine.store = ∅) (h : Stored s s' key value) (h' : Holds s' key' value') :
    key' = key ∧ value' = value := by
  obtain ⟨e, hst, rfl, -⟩ := h
  obtain ⟨e', he, rfl, -⟩ := h'
  rw [hst, hempty] at he
  by_cases hk : key' = key
  · subst hk
    rw [AList.lookup_insert, Option.some.injEq] at he
    exact ⟨rfl, he ▸ rfl⟩
  · rw [AList.lookup_insert_ne hk] at he
    cases he

/-- Without a limit of memory and a lifetime, a value that passes the size checks is stored. -/
theorem storeForm_ok (hpoisoned : s.poisoned = false) (hmem : s.engine.eviction.maxMemory = 0)
    {form : TextMap} (httl : form.lookup (text "ttl") = none) {key value : Bytes}
    (hv : validatePair key value = .ok ()) (done : Response) :
    (storeForm o s form key value done).1 = done
      ∧ Stored s (storeForm o s form key value done).2 key value := by
  unfold storeForm Server.locked
  simp only [hpoisoned, Bool.false_eq_true, if_false, set_of_zero hmem hv, Except.mapError, httl]
  exact ⟨trivial, _, rfl, rfl, rfl⟩

theorem storeForm_cases (hmem : s.engine.eviction.maxMemory = 0) {form : TextMap}
    (httl : form.lookup (text "ttl") = none) (key value : Bytes) (done : Response) :
    (∃ e, storeForm o s form key value done = (failed e, s)
        ∧ (s.poisoned = false → validatePair key value ≠ .ok ()))
      ∨ (storeForm o s form key value done).1 = done ∧ validatePair key value = .ok ()
        ∧ Stored s (storeForm o s form key value done).2 key value := by
  cases hpoisoned : s.poisoned with
  | true =>
    unfold storeForm Server.locked
    simp only [hpoisoned, if_true]
    exact .inl ⟨_, rfl, nofun⟩
  | false =>
    cases hv : validatePair key value with
    | error e =>
      have hset : s.engine.set (o.reading 0).env key value = (.error e, s.engine) := by
        simp only [KvEngine.set, KvEngine.insert, hv]
      unfold storeForm Server.locked
      simp only [hpoisoned, Bool.false_eq_true, if_false, hset, Except.mapError]
      refine .inl ⟨ServerError.ofEngine e, ?_, nofun⟩
      rw [← hpoisoned]
    | ok u =>
      obtain ⟨hdone, hstored⟩ := @storeForm_ok o s hpoisoned hmem form httl key value hv done
      exact .inr ⟨hdone, rfl, hstored⟩

/-! ## Reading -/

theorem ascii_of_padded {t : Bytes} (h : Base64.Padded (withoutBlanks t)) : ∀ b ∈ t, b < 0x80 := by
  intro b hb
  by_cases hblank : isAsciiWhitespace b = true
  · have hcases : b = 32 ∨ b = 9 ∨ b = 10 ∨ b = 12 ∨ b = 13 := by
      simpa [isAsciiWhitespace] using hblank
    rcases hcases with rfl | rfl | rfl | rfl | rfl <;> decide
  · exact h.ascii b (List.mem_filter.2 ⟨hb, by simpa using hblank⟩)

/-- A field in base64 that is padded as it should be is read as what it denotes. -/
theorem base64Decode_lossy {t : Bytes} (h : Base64.Padded (withoutBlanks t)) :
    base64Decode (Utf8.lossy t) = Base64.decode (withoutBlanks t) := by
  obtain ⟨bytes, hbytes⟩ := Option.isSome_iff_exists.1 ((Base64.decode_isSome_iff _).2 h)
  rw [Utf8.lossy_of_valid (Utf8.valid_of_ascii t (ascii_of_padded h)), hbytes,
    base64Decode_of_decode hbytes]

theorem formBytes_eq (hbody : Utf8.valid body = true) {name : String}
    (hname : name = "key" ∨ name = "value") :
    formBytes (parseForm body) name = readField body name := by
  have hb64 : (parseForm body).lookup (text name ++ text "_b64")
      = (fieldOf body (name ++ "_b64")).map Utf8.lossy := by
    rcases hname with rfl | rfl
    · exact @parseForm_lookup body hbody "key_b64" (Utf8.ascii_of_all rfl)
    · exact @parseForm_lookup body hbody "value_b64" (Utf8.ascii_of_all rfl)
  have hplain : (parseForm body).lookup (text name) = (fieldOf body name).map Utf8.lossy := by
    rcases hname with rfl | rfl
    · exact parseForm_lookup hbody (Utf8.ascii_of_all rfl)
    · exact parseForm_lookup hbody (Utf8.ascii_of_all rfl)
  unfold formBytes readField
  rw [hb64, hplain]
  cases fieldOf body (name ++ "_b64") <;> rfl

theorem formBytes_invalid (hbody : ¬ Utf8.valid body = true) (name : String) :
    formBytes (parseForm body) name = none := by
  have hempty : parseForm body = ∅ := by
    rw [parseForm, if_neg hbody]
    rfl
  rw [hempty]
  rfl

/-- A padded field in base64, or a field of UTF-8, is read as what was sent. -/
theorem readField_eq {name : String}
    (hpadded : ∀ t, fieldOf body (name ++ "_b64") = some t → Base64.Padded (withoutBlanks t))
    (htext : fieldOf body (name ++ "_b64") = none →
      ∀ t, fieldOf body name = some t → Utf8.valid t = true) :
    readField body name = sent body name none := by
  unfold readField sent
  cases hb64 : fieldOf body (name ++ "_b64") with
  | some t => exact base64Decode_lossy (hpadded t hb64)
  | none =>
    cases hplain : fieldOf body name with
    | none => rfl
    | some t => exact congrArg some (Utf8.lossy_of_valid (htext hb64 t hplain))

theorem sent_default {name : String}
    (hpadded : ∀ t, fieldOf body (name ++ "_b64") = some t → Base64.Padded (withoutBlanks t)) :
    some ((sent body name none).getD []) = sent body name (some []) := by
  unfold sent
  cases hb64 : fieldOf body (name ++ "_b64") with
  | some t =>
    obtain ⟨bytes, hbytes⟩ :=
      Option.isSome_iff_exists.1 ((Base64.decode_isSome_iff _).2 (hpadded t hb64))
    simp [hbytes]
  | none => cases fieldOf body name <;> rfl

namespace Write

theorem takesKey_eq {w : Write} (hpadded : PaddedFields body) (htext : w.KeyIsText body) :
    w.takesKey body = w.key body := by
  cases w with
  | create => exact readField_eq (hpadded "key_b64" (by simp)) htext
  | update raw => exact congrArg some (Utf8.lossy_of_valid htext)

theorem takesValue_eq {w : Write} (hpadded : PaddedFields body) (htext : ValueIsText body) :
    w.takesValue body = w.value body := by
  have hfield := hpadded "value_b64" (by simp)
  have hread : readField body "value" = sent body "value" none := readField_eq hfield htext
  cases w with
  | create =>
    rw [takesValue, hread]
    exact sent_default hfield
  | update raw => exact hread

end Write

theorem route_create (page : Bytes) {req : Request} (h : Write.create.Asks req) :
    route page o s req = createKey o s req.body := by
  have hget : text "POST" ≠ text "GET" := by decide
  have h1 : text "/api/keys" ≠ text "/" := by decide
  have h2 : text "/api/keys" ≠ text "/api/info" := by decide
  rw [route, h.1, h.2, if_neg h1, if_neg h2, if_pos rfl, if_neg hget, if_pos rfl]

theorem route_update (page : Bytes) {req : Request} {raw : Bytes}
    (h : (Write.update raw).Asks req) :
    route page o s req = updateKey o s (urlDecode raw) req.body := by
  have hpath : ∀ p ∈ [text "/", text "/api/info", text "/api/keys", text "/api/command"],
      keysPath ++ raw ≠ p := by
    intro p hp heq
    have hshort : ∀ p ∈ [text "/", text "/api/info", text "/api/keys", text "/api/command"],
        p.take 10 ≠ keysPath := by decide
    exact hshort p hp (heq ▸ rfl)
  simp only [List.forall_mem_cons] at hpath
  have hstrip : stripStart keysPath (keysPath ++ raw) = some raw := by
    simp [stripStart]
  have hget : text "PUT" ≠ text "GET" := by decide
  have hdelete : text "PUT" ≠ text "DELETE" := by decide
  rw [route, h.2, if_neg hpath.1, if_neg hpath.2.1, if_neg hpath.2.2.1, if_neg hpath.2.2.2.1]
  simp only [hstrip]
  rw [routeKey, h.1, if_neg hget, if_neg hdelete, if_pos (.inr rfl)]

theorem lookup_ttl (httl : fieldOf body "ttl" = none) :
    (parseForm body).lookup (text "ttl") = none := by
  by_cases hbody : Utf8.valid body = true
  · rw [parseForm_lookup hbody (Utf8.ascii_of_all rfl), httl]
    rfl
  · rw [parseForm, if_neg hbody]
    rfl

/-- An error that changes no key, which a server whose lock is not poisoned gives to a form that the
handler does not accept, or what the handler accepts is stored. -/
def Settles (w : Write) (body : Bytes) (s : Server) (x : Response × Server) : Prop :=
  (400 ≤ x.1.status ∧ x.2.engine.store = s.engine.store
      ∧ (s.poisoned = false → ∀ key value, ¬ w.Accepts body key value))
    ∨ x.1.status = 200 ∧ ∃ key value, w.Accepts body key value ∧ Stored s x.2 key value

theorem storeForm_settles (hmem : s.engine.eviction.maxMemory = 0)
    (httl : (parseForm body).lookup (text "ttl") = none) {w : Write} {key value done : Bytes}
    (hbody : Utf8.valid body = true) (hkey : w.takesKey body = some key)
    (hvalue : w.takesValue body = some value) :
    Settles w body s (storeForm o s (parseForm body) key value (okJson done)) := by
  rcases @storeForm_cases o s hmem _ httl key value (okJson done) with
    ⟨e, he, hno⟩ | ⟨hdone, hv, hstored⟩
  · rw [he]
    refine .inl ⟨Nat.le_of_ble_eq_true rfl, rfl, fun hp key' value' hacc => hno hp ?_⟩
    cases hkey.symm.trans hacc.takesKey
    cases hvalue.symm.trans hacc.takesValue
    exact hacc.valid
  · exact .inr ⟨congrArg Response.status hdone, key, value, ⟨hbody, hkey, hvalue, hv⟩, hstored⟩

theorem createKey_settles (hmem : s.engine.eviction.maxMemory = 0)
    (httl : (parseForm body).lookup (text "ttl") = none) :
    Settles .create body s (createKey o s body) := by
  unfold createKey
  simp only []
  by_cases hbody : Utf8.valid body = true
  · rw [formBytes_eq hbody (.inl rfl), formBytes_eq hbody (.inr rfl)]
    cases hkey : readField body "key" with
    | none =>
      refine .inl ⟨Nat.le_refl 400, rfl, fun _ key value hacc => ?_⟩
      cases hkey.symm.trans hacc.takesKey
    | some key =>
      simp only []
      split_ifs with hnil
      · refine .inl ⟨Nat.le_refl 400, rfl, fun _ key' value hacc => ?_⟩
        cases hkey.symm.trans hacc.takesKey
        subst hnil
        have hsizes := validateKey_of_validatePair hacc.valid
        cases hsizes
      · exact storeForm_settles hmem httl hbody hkey rfl
  · rw [formBytes_invalid hbody]
    exact .inl ⟨Nat.le_refl 400, rfl, fun _ _ _ hacc => hbody hacc.utf8⟩

theorem updateKey_settles (hmem : s.engine.eviction.maxMemory = 0)
    (httl : (parseForm body).lookup (text "ttl") = none) (raw : Bytes) :
    Settles (.update raw) body s (updateKey o s (urlDecode raw) body) := by
  unfold updateKey
  simp only []
  by_cases hbody : Utf8.valid body = true
  · rw [formBytes_eq hbody (.inr rfl)]
    cases hvalue : readField body "value" with
    | none =>
      refine .inl ⟨Nat.le_refl 400, rfl, fun _ key value hacc => ?_⟩
      cases hvalue.symm.trans hacc.takesValue
    | some value => exact storeForm_settles hmem httl hbody rfl hvalue
  · rw [formBytes_invalid hbody]
    exact .inl ⟨Nat.le_refl 400, rfl, fun _ _ _ hacc => hbody hacc.utf8⟩

theorem route_settles (page : Bytes) {req : Request} {w : Write} (h : w.Asks req)
    (hmem : s.engine.eviction.maxMemory = 0) (httl : fieldOf req.body "ttl" = none) :
    Settles w req.body s (route page o s req) := by
  cases w with
  | create =>
    rw [route_create page h]
    exact createKey_settles hmem (lookup_ttl httl)
  | update raw =>
    rw [route_update page h]
    exact updateKey_settles hmem (lookup_ttl httl) raw

/-- Fields whose base64 is padded and whose texts are UTF-8. -/
theorem Settles.faithful {w : Write} {x : Response × Server} (h : Settles w body s x)
    (hpadded : PaddedFields body) (hkey : w.KeyIsText body) (hvalue : ValueIsText body) :
    Faithful w body s x := by
  refine ⟨?_, fun hnot => absurd hpadded hnot⟩
  rcases h with ⟨herror, hsame, -⟩ | ⟨hok, key, value, hacc, hstored⟩
  · exact .inl ⟨herror, hsame⟩
  · refine .inr ⟨hok, key, value, ?_, ?_, hstored.holds⟩
    · rw [← w.takesKey_eq hpadded hkey, hacc.takesKey]
    · rw [← w.takesValue_eq hpadded hvalue, hacc.takesValue]

/-- What a faithful success on an empty store says of the fields. -/
theorem Settles.sound {w : Write} {x : Response × Server} (h : Settles w body s x)
    (hempty : s.engine.store = ∅) (hp : s.poisoned = false) {key value : Bytes}
    (hacc : w.Accepts body key value) (hf : Faithful w body s x) :
    PaddedFields body ∧ w.KeyIsText body ∧ ValueIsText body := by
  obtain ⟨-, -, hno⟩ | ⟨hok, key, value, hacc, hstored⟩ := h
  · exact absurd hacc (hno hp key value)
  have hpadded : PaddedFields body := by
    by_contra hnot
    have := hf.refuses hnot
    omega
  obtain ⟨herror, -⟩ | ⟨-, key', value', hk, hv, hholds⟩ := hf.stores
  · omega
  obtain ⟨rfl, rfl⟩ := hstored.only hempty hholds
  refine ⟨hpadded, ?_, fun hb64 t ht => ?_⟩
  · cases w with
    | create =>
      intro hb64 t ht
      have htaken : Write.create.takesKey body = some (Utf8.lossy t) := by
        simp [Write.takesKey, readField, hb64, ht]
      have hsent : Write.create.key body = some t := by simp [Write.key, sent, hb64, ht]
      exact Utf8.lossy_eq_self_iff.1
        (Option.some.inj (htaken.symm.trans (hacc.takesKey.trans (hk.symm.trans hsent))))
    | update raw => exact Utf8.lossy_eq_self_iff.1 (Option.some.inj (hacc.takesKey.trans hk.symm))
  · have hsent : w.value body = some t := by
      cases w <;> simp [Write.value, sent, hb64, ht]
    have htaken : w.takesValue body = some (Utf8.lossy t) := by
      cases w <;> simp [Write.takesValue, readField, hb64, ht]
    exact Utf8.lossy_eq_self_iff.1
      (Option.some.inj (htaken.symm.trans (hacc.takesValue.trans (hv.symm.trans hsent))))

end Write

/-- A request that writes a key, without a lifetime, stores what its fields denote or fails on every
server without a limit of memory, just when its handler accepts nothing in it, or its fields in
base64 are padded and its other fields are UTF-8. -/
theorem writes_faithful (page : Bytes) (o : Outside) (req : Request) (w : Write)
    (h : w.Asks req) (httl : fieldOf req.body "ttl" = none) :
    (∀ s : Server, s.engine.eviction.maxMemory = 0 → Faithful w req.body s (route page o s req))
      ↔ (∀ key value, ¬ w.Accepts req.body key value)
        ∨ PaddedFields req.body ∧ w.KeyIsText req.body ∧ ValueIsText req.body := by
  constructor
  · intro hf
    by_cases hacc : ∃ key value, w.Accepts req.body key value
    · obtain ⟨key, value, hacc⟩ := hacc
      have hmem : Server.new.engine.eviction.maxMemory = 0 := rfl
      exact .inr ((route_settles page h hmem httl).sound rfl rfl hacc (hf Server.new hmem))
    · exact .inl fun key value h => hacc ⟨key, value, h⟩
  · rintro (hno | ⟨hpadded, hkey, hvalue⟩) s hmem
    · obtain ⟨herror, hsame, -⟩ | ⟨-, key, value, hacc, -⟩ :=
        @route_settles o s page req w h hmem httl
      · exact ⟨.inl ⟨herror, hsame⟩, fun _ => herror⟩
      · exact absurd hacc (hno key value)
    · exact (route_settles page h hmem httl).faithful hpadded hkey hvalue

/-! ## Requests on an empty server -/

def steadyOutside (t : ℕ) : Outside where
  debug := ⟨fun _ => [], fun _ => []⟩
  reading _ := Connection.steadyReading t
  nowMs := Int64.ofInt t
  uptimeSec := 0
  hitRatio _ _ := []
  aheAlpha := []
  aheHitRatio := []

def postKey (body : String) : Request := ⟨text "POST", text "/api/keys", [], ∅, text body⟩

def putKey (body : String) : Request := ⟨text "PUT", text "/api/keys/k", [], ∅, text body⟩

def storedData (x : Response × Server) (key : Bytes) : Option Bytes :=
  (x.2.engine.store.lookup key).map (·.data)

theorem storedData_of_holds {x : Response × Server} {key value : Bytes} (h : Holds x.2 key value) :
    storedData x key = some value := by
  obtain ⟨e, he, rfl, -⟩ := h
  rw [storedData, he, Option.map_some]

/-- A new key with a value in base64, and a key whose new value is refused by the decoder. -/
theorem writes_faithful_hi :
    Faithful .create (text "key=k&value_b64=aGk%3D") Server.new
        (route [] (steadyOutside 0) Server.new (postKey "key=k&value_b64=aGk%3D"))
      ∧ storedData (route [] (steadyOutside 0) Server.new (postKey "key=k&value_b64=aGk%3D")) [107]
          = some [104, 105]
      ∧ Faithful (.update [107]) (text "value_b64=!!!") Server.new
        (route [] (steadyOutside 0) Server.new (putKey "value_b64=!!!")) := by
  have hkey : fieldOf (text "key=k&value_b64=aGk%3D") "key" = some [107] := by decide
  have hkey64 : fieldOf (text "key=k&value_b64=aGk%3D") "key_b64" = none := by decide
  have hb64 : fieldOf (text "key=k&value_b64=aGk%3D") "value_b64" = some (text "aGk=") := by
    decide
  have hdecoded : (Base64.decode (withoutBlanks (text "aGk="))).isSome := by decide
  have hmem : Server.new.engine.eviction.maxMemory = 0 := rfl
  refine ⟨(writes_faithful [] (steadyOutside 0) (postKey "key=k&value_b64=aGk%3D") .create
    ⟨rfl, rfl⟩ (by decide)).2 (.inr ⟨?_, ?_, ?_⟩) Server.new hmem, by decide,
    (writes_faithful [] (steadyOutside 0) (putKey "value_b64=!!!") (.update [107]) ⟨rfl, rfl⟩
      (by decide)).2 (.inl fun key value hacc => ?_) Server.new hmem⟩
  · intro name hname t ht
    simp only [List.mem_cons, List.not_mem_nil, or_false] at hname
    rcases hname with rfl | rfl
    · exact absurd (hkey64.symm.trans ht) (by simp)
    · rw [← Option.some.inj (hb64.symm.trans ht)]
      exact (Base64.decode_isSome_iff _).1 hdecoded
  · intro _ t ht
    rw [← Option.some.inj (hkey.symm.trans ht)]
    rfl
  · intro hnone
    exact absurd (hb64.symm.trans hnone) (by simp)
  · have hread : readField (text "value_b64=!!!") "value" = none := by decide
    cases hread.symm.trans hacc.takesValue

/-- Success with a `value_b64` that the RFC does not decode is not faithful. -/
theorem not_faithful_of_undecoded {w : Write} {s : Server} {body t : Bytes} {x : Response × Server}
    (hok : x.1.status = 200) (ht : fieldOf body "value_b64" = some t)
    (hnone : Base64.decode (withoutBlanks t) = none) : ¬ Faithful w body s x := by
  intro hf
  have hpadded : ¬ PaddedFields body := by
    intro h
    have hsome := (Base64.decode_isSome_iff _).2 (h "value_b64" (by simp) t ht)
    rw [hnone] at hsome
    cases hsome
  have := hf.refuses hpadded
  omega

/-- A `value_b64` that cannot be decoded stores the empty value, one with padding in the middle is
accepted, and a value that is no text is replaced by one; all with success. -/
theorem undecodable_value_stored :
    (fieldOf (text "key=k&value_b64=!!!") "ttl" = none
        ∧ storedData (route [] (steadyOutside 0) Server.new (postKey "key=k&value_b64=!!!")) [107]
          = some []
        ∧ ¬ Faithful .create (text "key=k&value_b64=!!!") Server.new
          (route [] (steadyOutside 0) Server.new (postKey "key=k&value_b64=!!!")))
      ∧ (storedData (route [] (steadyOutside 0) Server.new (putKey "value_b64=QQ==Qg==")) [107]
          = some [65, 66]
        ∧ ¬ Faithful (.update [107]) (text "value_b64=QQ==Qg==") Server.new
          (route [] (steadyOutside 0) Server.new (putKey "value_b64=QQ==Qg==")))
      ∧ (storedData (route [] (steadyOutside 0) Server.new (putKey "value=%FF")) [107]
          = some [0xEF, 0xBF, 0xBD]
        ∧ ¬ Faithful (.update [107]) (text "value=%FF") Server.new
          (route [] (steadyOutside 0) Server.new (putKey "value=%FF"))) := by
  have hstored : storedData (route [] (steadyOutside 0) Server.new (putKey "value=%FF")) [107]
      = some [0xEF, 0xBF, 0xBD] := by decide
  refine ⟨⟨by decide, by decide, ?_⟩, ⟨by decide, ?_⟩, hstored,
    fun hf => ?_⟩
  · exact not_faithful_of_undecoded (by decide)
      (show fieldOf (text "key=k&value_b64=!!!") "value_b64" = some (text "!!!") by decide)
      (by decide)
  · exact not_faithful_of_undecoded (by decide)
      (show fieldOf (text "value_b64=QQ==Qg==") "value_b64" = some (text "QQ==Qg==") by
        decide) (by decide)
  · rcases hf.stores with ⟨herror, -⟩ | ⟨-, key, value, hkey, hvalue, hholds⟩
    · exact absurd herror (by decide)
    · have hsent : (Write.update [107]).value (text "value=%FF") = some [0xFF] := by decide
      cases hkey
      cases hsent.symm.trans hvalue
      exact absurd (hstored.symm.trans (storedData_of_holds hholds)) (by decide)

end FerrumKv.Dashboard
