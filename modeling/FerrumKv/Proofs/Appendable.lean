import FerrumKv.Proofs.Layout

/-!
# Appending to a file that was replayed

Replaying a file cuts off its tail, and what is appended to it then is read at the next start. The cut
ignores the bytes that were skipped, so it can fall inside a damaged part, and the first record appended
is then taken for the rest of that part. The appended records are read back exactly when that is not so
(`appendable_iff`).
-/

namespace FerrumKv

variable {regions : List Region} {file tail : Bytes}

section Layouts

variable {env : Env}

theorem Layout.loop_ok {rest tail : Bytes} (h : Layout rest regions tail)
    (len start : ℕ) : ∀ st : ReplayState, st.engine.eviction.maxMemory = 0 →
      (∀ parts ∈ recordsOf regions, Usable parts) → len = start + rest.length →
      ∃ buffers stats, ReplayLoop env len rest st buffers
          (.ok ⟨applyParts env st.engine (recordsOf regions), stats, cutAt start st.lastGood regions⟩)
        ∧ stats.truncatedTail = (st.stats.truncatedTail || decide (tail ≠ [])) := by
  induction h generalizing start with
  | ended =>
    intro st _ _ _
    exact ⟨_, st.stats, .stop rfl, by simp⟩
  | unfinished hne h =>
    intro st _ _ _
    exact ⟨_, _, .stop (replayRound_unfinished h), by simp [hne]⟩
  | @lost taken skipped h hskip =>
    intro st _ _ _
    have hne : taken ++ skipped ≠ [] := List.append_ne_nil_of_left_ne_nil h.ne_nil _
    exact ⟨_, _, .stop (replayRound_lost h hskip), by simp [hne]⟩
  | @record parts taken rest regions tail h next ih =>
    intro st h0 hu hlen
    rw [recordsOf, List.forall_mem_cons] at hu
    have hok := mt (applyRecord_refused env h0).1 (not_not.2 hu.1)
    obtain ⟨stats, hstats, hround⟩ := replayRound_record len h hok rest
    rw [List.length_append] at hlen
    have hgood : len - rest.length = start + taken.length := by omega
    rw [hgood] at hround
    obtain ⟨buffers, stats', hloop, htail⟩ := ih (start + taken.length)
      ⟨_, stats, start + taken.length⟩ ((congrArg _ (applyRecord_eviction h0)).trans h0) hu.2
      (by omega)
    exact ⟨_, stats', .again hround hloop, by rw [htail, ← hstats]⟩
  | @damaged taken skipped rest regions tail h hskip next ih =>
    intro st h0 hu hlen
    rw [List.length_append, List.length_append] at hlen
    obtain ⟨buffers, stats', hloop, htail⟩ := ih (start + taken.length + skipped.length)
      { st with
        stats := { st.stats with skipped := st.stats.skipped + 1 }
        lastGood := st.lastGood + taken.length } h0 hu (by omega)
    exact ⟨_, stats', .again (replayRound_damaged h hskip rest) hloop, htail⟩

/-- A file without a record that is refused is replayed as its records, and cut if it has a tail. -/
theorem Layout.replay_eq (env : Env)
    (h : Layout file regions tail) {s : KvEngine} (h0 : s.eviction.maxMemory = 0)
    (hu : ∀ parts ∈ recordsOf regions, Usable parts) :
    ∃ stats, replay env file s = .ok ⟨applyParts env s (recordsOf regions), stats,
      if tail = [] then file else file.take (cutAt 0 0 regions)⟩ := by
  obtain ⟨buffers, stats, hloop, htail⟩ :=
    h.loop_ok file.length 0 { engine := s } h0 hu (Nat.zero_add _).symm
  refine ⟨stats, ?_⟩
  rw [replay_of_loop hloop]
  by_cases hnil : tail = [] <;> simp [Except.map, finishReplay, htail, hnil]

theorem Layout.usable (h : Layout file regions tail)
    {s : KvEngine} (h0 : s.eviction.maxMemory = 0) {r : Replayed} (hr : replay env file s = .ok r) :
    ∀ parts ∈ recordsOf regions, Usable parts := by
  obtain ⟨buffers, res, hcomes⟩ := h.comes env file.length { engine := s } h0
  refine hcomes.ok_iff.1 ?_
  rw [replay_of_loop hcomes.loop] at hr
  rcases res with e | st
  · cases hr
  · exact ⟨st, rfl⟩

end Layouts

/-! ## Regions and what follows them -/

/-- The regions are read one after the other when `next` follows them: behind a damaged part decoding
stops at a `*`. -/
inductive Stands (next : Bytes) : List Region → Prop
  | nil : Stands next []
  | record {parts : List Bytes} {taken : Bytes} {regions : List Region} (h : IsRecord parts taken)
      (hs : Stands next regions) : Stands next (.record parts taken :: regions)
  | damaged {taken skipped : Bytes} {regions : List Region} (h : IsDamage taken)
      (hskip : 42 ∉ skipped) (hstar : (regionBytes regions ++ next).head? = some 42)
      (hs : Stands next regions) : Stands next (.damaged taken skipped :: regions)

section Stands

variable {next : Bytes} {regions : List Region}

theorem Layout.stands (h : Layout file regions tail) : Stands tail regions := by
  induction h with
  | ended => exact .nil
  | unfinished => exact .nil
  | lost => exact .nil
  | record h _ ih => exact .record h ih
  | damaged h hskip next ih => exact .damaged h hskip (by rw [← next.bytes]; rfl) ih

theorem Stands.congr {next' : Bytes} (hs : Stands next regions)
    (h : next.head? = some 42 → next'.head? = some 42) : Stands next' regions := by
  induction hs with
  | nil => exact .nil
  | record hr _ ih => exact .record hr ih
  | damaged hd hskip hstar _ ih =>
    refine .damaged hd hskip ?_ ih
    rw [List.head?_append] at hstar ⊢
    rcases hhead : (regionBytes _).head? with _ | b <;> rw [hhead] at hstar
    · exact h hstar
    · exact hstar

theorem regionBytes_append (before after : List Region) :
    regionBytes (before ++ after) = regionBytes before ++ regionBytes after :=
  List.flatMap_append

theorem recordsOf_append : ∀ before after : List Region,
    recordsOf (before ++ after) = recordsOf before ++ recordsOf after
  | [], _ => rfl
  | .record parts _ :: before, after => congrArg (parts :: ·) (recordsOf_append before after)
  | .damaged _ _ :: before, after => recordsOf_append before after

theorem stands_append {before after : List Region} :
    Stands next (before ++ after) ↔ Stands (regionBytes after ++ next) before ∧ Stands next after := by
  induction before with
  | nil => exact ⟨fun h => ⟨.nil, h⟩, fun h => h.2⟩
  | cons region before ih =>
    constructor
    · intro h
      rcases h with _ | ⟨hr, hs⟩ | ⟨hd, hskip, hstar, hs⟩
      · exact ⟨.record hr (ih.1 hs).1, (ih.1 hs).2⟩
      · change (regionBytes (before ++ after) ++ next).head? = some 42 at hstar
        rw [regionBytes_append, List.append_assoc] at hstar
        exact ⟨.damaged hd hskip hstar (ih.1 hs).1, (ih.1 hs).2⟩
    · rintro ⟨h, hafter⟩
      rcases h with _ | ⟨hr, hs⟩ | ⟨hd, hskip, hstar, hs⟩
      · exact .record hr (ih.2 ⟨hs, hafter⟩)
      · refine .damaged hd hskip ?_ (ih.2 ⟨hs, hafter⟩)
        change (regionBytes (before ++ after) ++ next).head? = some 42
        rwa [regionBytes_append, List.append_assoc]

theorem Stands.bytes_ne_nil {region : Region} (hs : Stands next (region :: regions)) :
    regionBytes (region :: regions) ≠ [] := by
  refine List.append_ne_nil_of_left_ne_nil ?_ _
  rcases hs with _ | ⟨hr, -⟩ | ⟨hd, -⟩
  · exact hr.ne_nil
  · exact List.append_ne_nil_of_left_ne_nil hd.ne_nil _

theorem exists_cons_of_head? {l : Bytes} (h : l.head? = some 42) : ∃ rest, l = 42 :: rest := by
  rcases l with _ | ⟨b, rest⟩
  · cases h
  · rw [List.head?_cons, Option.some.injEq] at h
    exact ⟨rest, by rw [h]⟩

theorem Stands.layout {regions' : List Region} {tail : Bytes} (hs : Stands next regions)
    (h : Layout next regions' tail) :
    Layout (regionBytes regions ++ next) (regions ++ regions') tail := by
  induction hs with
  | nil => exact h
  | @record parts taken regions hr _ ih =>
    have := Layout.record hr ih
    rwa [← List.append_assoc] at this
  | @damaged taken skipped regions hd hskip hstar _ ih =>
    obtain ⟨rest, hrest⟩ := exists_cons_of_head? hstar
    have := Layout.damaged hd hskip (hrest ▸ ih)
    rwa [← hrest, ← List.append_assoc] at this

theorem Stands.layout_alone (hs : Stands [42] regions) :
    ∃ regions' tail, Layout (regionBytes regions) regions' tail
      ∧ recordsOf regions' = recordsOf regions := by
  induction hs with
  | nil => exact ⟨[], [], .ended, rfl⟩
  | @record parts taken regions hr _ ih =>
    obtain ⟨regions', tail, h, hrecords⟩ := ih
    exact ⟨_, tail, .record hr h, congrArg (parts :: ·) hrecords⟩
  | @damaged taken skipped regions hd hskip hstar hs ih =>
    obtain ⟨regions', tail, h, hrecords⟩ := ih
    rcases regions with _ | ⟨region, regions⟩
    · refine ⟨[], taken ++ skipped, ?_, rfl⟩
      simpa [regionBytes, Region.bytes] using Layout.lost hd hskip
    · rw [List.head?_append_of_ne_nil _ hs.bytes_ne_nil] at hstar
      obtain ⟨rest, hrest⟩ := exists_cons_of_head? hstar
      refine ⟨.damaged taken skipped :: regions', tail, ?_, hrecords⟩
      have := Layout.damaged hd hskip (hrest ▸ h)
      rwa [← hrest] at this

end Stands

section Cut

theorem cutAt_append : ∀ (before after : List Region) (start good : ℕ),
    cutAt start good (before ++ after)
      = cutAt (start + (regionBytes before).length) (cutAt start good before) after
  | [], _, _, _ => rfl
  | .record parts taken :: before, after, start, good => by
    have hb : (regionBytes (.record parts taken :: before)).length
        = taken.length + (regionBytes before).length := List.length_append
    rw [List.cons_append, cutAt, cutAt, cutAt_append before after, hb, Nat.add_assoc]
  | .damaged taken skipped :: before, after, start, good => by
    have hb : (regionBytes (.damaged taken skipped :: before)).length
        = taken.length + skipped.length + (regionBytes before).length :=
      List.length_append.trans (congrArg (· + _) List.length_append)
    rw [List.cons_append, cutAt, cutAt, cutAt_append before after, hb]
    congr 1
    omega

theorem cutAt_bounds : ∀ (regions : List Region) {start good : ℕ}, good ≤ start →
    good ≤ cutAt start good regions
      ∧ cutAt start good regions ≤ start + (regionBytes regions).length
  | [], start, good, h => ⟨le_rfl, h⟩
  | .record parts taken :: regions, start, good, h => by
    have hb : (regionBytes (.record parts taken :: regions)).length
        = taken.length + (regionBytes regions).length := List.length_append
    have ih := cutAt_bounds regions (le_refl (start + taken.length))
    rw [cutAt, hb]
    omega
  | .damaged taken skipped :: regions, start, good, h => by
    have hb : (regionBytes (.damaged taken skipped :: regions)).length
        = taken.length + skipped.length + (regionBytes regions).length :=
      List.length_append.trans (congrArg (· + _) List.length_append)
    have ih := cutAt_bounds regions
      (show good + taken.length ≤ start + taken.length + skipped.length by omega)
    rw [cutAt, hb]
    omega

theorem le_cutAt_of_record (before after : List Region) (parts : List Bytes) (taken : Bytes) :
    (regionBytes before).length + taken.length
      ≤ cutAt 0 0 (before ++ .record parts taken :: after) := by
  rw [cutAt_append, cutAt, Nat.zero_add]
  exact (cutAt_bounds after le_rfl).1

theorem exists_record : ∀ regions : List Region, recordsOf regions ≠ [] →
    ∃ before parts taken after, regions = before ++ .record parts taken :: after
  | [], h => absurd rfl h
  | .record parts taken :: regions, _ => ⟨[], parts, taken, regions, rfl⟩
  | .damaged taken skipped :: regions, h => by
    obtain ⟨before, parts, taken', after, hsplit⟩ := exists_record regions h
    exact ⟨.damaged taken skipped :: before, parts, taken', after, by rw [hsplit]; rfl⟩

theorem exists_split : ∀ (regions : List Region) {n : ℕ}, n ≤ (regionBytes regions).length →
    n = (regionBytes regions).length
      ∨ ∃ before region after, regions = before ++ region :: after
        ∧ (regionBytes before).length ≤ n ∧ n < (regionBytes before).length + region.bytes.length
  | [], n, h => .inl (Nat.le_zero.1 h)
  | region :: regions, n, h => by
    have hb : (regionBytes (region :: regions)).length
        = region.bytes.length + (regionBytes regions).length := List.length_append
    rcases Nat.lt_or_ge n region.bytes.length with hlt | hge
    · exact .inr ⟨[], region, regions, rfl, Nat.zero_le _, by simpa [regionBytes] using hlt⟩
    · rcases exists_split regions (show n - region.bytes.length ≤ (regionBytes regions).length by omega)
        with heq | ⟨before, region', after, rfl, hle, hlt⟩
      · exact .inl (by omega)
      · have hb' : (regionBytes (region :: before)).length
            = region.bytes.length + (regionBytes before).length := List.length_append
        exact .inr ⟨region :: before, region', after, rfl, by omega, by omega⟩

theorem take_regionBytes {before : List Region} (after : List Region) {region : Region} {n : ℕ}
    (hle : (regionBytes before).length ≤ n)
    (hlt : n < (regionBytes before).length + region.bytes.length) :
    (regionBytes (before ++ region :: after)).take n
      = regionBytes before ++ region.bytes.take (n - (regionBytes before).length) := by
  have hb : regionBytes (region :: after) = region.bytes ++ regionBytes after := rfl
  rw [regionBytes_append, hb, List.take_append, List.take_of_length_le hle,
    List.take_append_of_le_length]
  omega

theorem recordsOf_eq_nil {before after : List Region} {taken skipped : Bytes}
    (hlt : cutAt 0 0 (before ++ .damaged taken skipped :: after)
      < (regionBytes before).length + (taken.length + skipped.length)) : recordsOf after = [] := by
  by_contra hne
  obtain ⟨before', parts, taken', after', rfl⟩ := exists_record after hne
  have := le_cutAt_of_record (before ++ .damaged taken skipped :: before') after' parts taken'
  have hb : (regionBytes (.damaged taken skipped :: before')).length
      = (Region.damaged taken skipped).bytes.length + (regionBytes before').length := List.length_append
  rw [List.append_assoc, List.cons_append, regionBytes_append, List.length_append, hb, Region.bytes,
    List.length_append] at this
  omega

/-- Where the cut falls: at the end of the regions, or in a damaged one behind the last record. -/
theorem cut_cases (regions : List Region) :
    cutAt 0 0 regions = (regionBytes regions).length
      ∨ ∃ before taken skipped after, regions = before ++ .damaged taken skipped :: after
        ∧ recordsOf after = [] ∧ (regionBytes before).length ≤ cutAt 0 0 regions
        ∧ cutAt 0 0 regions < (regionBytes before).length + (taken.length + skipped.length) := by
  have hle := (cutAt_bounds regions (le_refl 0)).2
  rw [Nat.zero_add] at hle
  rcases exists_split regions hle with heq | ⟨before, region, after, hsplit, hge, hlt⟩
  · exact .inl heq
  refine .inr ?_
  rcases region with ⟨parts, taken⟩ | ⟨taken, skipped⟩
  · have := le_cutAt_of_record before after parts taken
    rw [← hsplit] at this
    exact absurd hlt (Nat.not_lt.2 this)
  rw [Region.bytes, List.length_append] at hlt
  subst hsplit
  exact ⟨before, taken, skipped, after, rfl, recordsOf_eq_nil hlt, hge, hlt⟩

/-- If the cut does not fall inside a damaged part, what is kept reads on at whatever record follows. -/
theorem exists_kept {tail : Bytes} (hs : Stands tail regions) (hc : ¬CutInside regions) :
    ∃ kept, (regionBytes regions).take (cutAt 0 0 regions) = regionBytes kept
      ∧ recordsOf kept = recordsOf regions ∧ ∀ next : Bytes, next.head? = some 42 → Stands next kept := by
  rcases cut_cases regions with heq | ⟨before, taken, skipped, after, hsplit, hnone, hge, hlt⟩
  · refine ⟨regions, ?_, rfl, fun next hnext => hs.congr fun _ => hnext⟩
    rw [heq, List.take_length]
  have hrecords : recordsOf regions = recordsOf before := by
    rw [hsplit, recordsOf_append, recordsOf, hnone, List.append_nil]
  have htake := take_regionBytes after hge (show cutAt 0 0 regions
    < (regionBytes before).length + (Region.damaged taken skipped).bytes.length by
      simpa [Region.bytes] using hlt)
  rw [← hsplit] at htake
  rw [hsplit, stands_append] at hs
  obtain ⟨hbefore, _ | _ | ⟨hd, hskip, -, -⟩⟩ := hs
  by_cases hzero : cutAt 0 0 regions = (regionBytes before).length
  · refine ⟨before, ?_, hrecords.symm, fun next hnext => hbefore.congr fun _ => hnext⟩
    rw [htake, hzero, Nat.sub_self, List.take_zero, List.append_nil]
  have hpast : (regionBytes before).length + taken.length ≤ cutAt 0 0 regions := by
    by_contra hinside
    exact hc ⟨before, taken, skipped, after, hsplit, by omega, by omega⟩
  obtain ⟨k, hk⟩ := Nat.exists_eq_add_of_le hpast
  refine ⟨before ++ [.damaged taken (skipped.take k)], ?_, ?_, fun next hnext => ?_⟩
  · have hrest : (regionBytes before).length + taken.length + k - (regionBytes before).length
        = taken.length + k := by omega
    rw [htake, hk, regionBytes_append, hrest, Region.bytes, List.take_length_add_append]
    simp [regionBytes, Region.bytes]
  · rw [hrecords, recordsOf_append, recordsOf, recordsOf, List.append_nil]
  · refine stands_append.2 ⟨hbefore.congr fun hstar => ?_, .damaged hd
      (fun hmem => hskip (List.mem_of_mem_take hmem)) hnext .nil⟩
    have hb : ∀ (sk : Bytes) (rs : List Region) (l : Bytes),
        (regionBytes (.damaged taken sk :: rs) ++ l).head? = taken.head? := by
      intro sk rs l
      rw [show regionBytes (.damaged taken sk :: rs) ++ l = taken ++ (sk ++ (regionBytes rs ++ l)) by
        simp [regionBytes, Region.bytes], List.head?_append_of_ne_nil _ hd.ne_nil]
    rw [hb] at hstar ⊢
    exact hstar

end Cut

section Append

variable {env : Env} {log : List AofRecord}

theorem asRecord_parts (r : AofRecord) : asRecord r.parts = some r := by
  rcases r with ⟨key, value⟩ | key | _ | ⟨key, absMs⟩ | key
  · simp [asRecord, AofRecord.parts, recordName_ascii]
  · simp [asRecord, AofRecord.parts, recordName_ascii]
  · simp [asRecord, AofRecord.parts, recordName_ascii]
  · simp [asRecord, AofRecord.parts, recordName_ascii, parseI64_i64ToString]
  · simp [asRecord, AofRecord.parts, recordName_ascii]

theorem AofRecord.Valid.usable {r : AofRecord} (h : r.Valid) : Usable r.parts := by
  intro key value hr
  rw [asRecord_parts, Option.some.injEq] at hr
  subst hr
  exact h

def logRegions (log : List AofRecord) : List Region :=
  log.map fun r => .record r.parts (encodeCommand r.parts)

theorem recordsOf_logRegions : ∀ log : List AofRecord,
    recordsOf (logRegions log) = log.map AofRecord.parts
  | [] => rfl
  | r :: log => congrArg (r.parts :: ·) (recordsOf_logRegions log)

theorem layout_encodeLog : ∀ {log : List AofRecord}, (∀ r ∈ log, r.Valid) →
    Layout (encodeLog log) (logRegions log) []
  | [], _ => .ended
  | r :: log, h => by
    rw [List.forall_mem_cons] at h
    exact .record (isRecord_encodeCommand ⟨length_parts_lt r, length_of_mem_parts h.1⟩)
      (layout_encodeLog h.2)

theorem head?_encodeLog (hne : log ≠ []) : (encodeLog log).head? = some 42 := by
  obtain ⟨r, log, rfl⟩ := List.exists_cons_of_ne_nil hne
  rfl

/-- The layout of a file with records appended to it, and that it has the records of both. -/
theorem Layout.append (h : Layout file regions tail)
    (hc : ¬(tail ≠ [] ∧ CutInside regions)) (hv : ∀ r ∈ log, r.Valid) :
    ∃ regions' tail', Layout ((if tail = [] then file else file.take (cutAt 0 0 regions))
        ++ encodeLog log) regions' tail'
      ∧ recordsOf regions' = recordsOf regions ++ log.map AofRecord.parts := by
  have hlog := layout_encodeLog hv
  by_cases htail : tail = []
  · subst htail
    rw [if_pos rfl, h.bytes, List.append_nil]
    have hs : Stands (encodeLog log) regions := h.stands.congr fun hnil => nomatch hnil
    refine ⟨_, _, hs.layout hlog, ?_⟩
    rw [recordsOf_append, recordsOf_logRegions]
  obtain ⟨kept, hkept, hrecords, hstands⟩ := exists_kept h.stands fun hin => hc ⟨htail, hin⟩
  have hle := (cutAt_bounds regions (le_refl 0)).2
  rw [Nat.zero_add] at hle
  rw [if_neg htail, h.bytes, List.take_append_of_le_length hle, hkept]
  by_cases hnil : log = []
  · subst hnil
    obtain ⟨regions', tail', hl, hrec⟩ := (hstands [42] rfl).layout_alone
    refine ⟨regions', tail', ?_, by rw [hrec, hrecords, List.map_nil, List.append_nil]⟩
    rwa [show encodeLog [] = [] from rfl, List.append_nil]
  · refine ⟨_, _, (hstands _ (head?_encodeLog hnil)).layout hlog, ?_⟩
    rw [recordsOf_append, hrecords, recordsOf_logRegions]

theorem applyParts_unlimited (env : Env) : ∀ (records : List (List Bytes)) {s : KvEngine},
    s.eviction.maxMemory = 0 → (applyParts env s records).eviction.maxMemory = 0
  | [], _, h0 => h0
  | _ :: records, _, h0 =>
    applyParts_unlimited env records ((congrArg _ (applyRecord_eviction h0)).trans h0)

theorem applyParts_append (env : Env) (s : KvEngine) (xs ys : List (List Bytes)) :
    applyParts env s (xs ++ ys) = applyParts env (applyParts env s xs) ys :=
  List.foldl_append

/-- Records appended where the cut is not inside a damaged part are replayed behind the others. -/
theorem Layout.replay_append
    (h : Layout file regions tail) (hc : ¬(tail ≠ [] ∧ CutInside regions)) {s : KvEngine}
    (h0 : s.eviction.maxMemory = 0) {r : Replayed} (hr : replay env file s = .ok r)
    (hv : ∀ b ∈ log, b.Valid) :
    ∃ r', replay env (r.file ++ encodeLog log) s = .ok r' ∧ r'.engine = applyAll env r.engine log := by
  have hu := h.usable h0 hr
  obtain ⟨stats, hreplay⟩ := h.replay_eq env h0 hu
  rw [hr, Except.ok.injEq] at hreplay
  subst hreplay
  obtain ⟨regions', tail', hl, hrecords⟩ := h.append hc hv
  have hu' : ∀ parts ∈ recordsOf regions', Usable parts := by
    intro parts hp
    rw [hrecords, List.mem_append, List.mem_map] at hp
    rcases hp with hp | ⟨b, hb, rfl⟩
    · exact hu parts hp
    · exact (hv b hb).usable
  obtain ⟨stats', hreplay'⟩ := hl.replay_eq env h0 hu'
  refine ⟨_, hreplay', ?_⟩
  rw [applyAll_eq, ← applyParts_append, hrecords]

end Append

/-! ## Records behind a torn part -/

theorem split_last (x : UInt8) {a a' l l' : Bytes} (h : a ++ x :: l = a' ++ x :: l') (hl : x ∉ l)
    (hl' : x ∉ l') : a = a' ∧ l = l' := by
  rcases List.append_eq_append_iff.1 h with ⟨b, rfl, hb⟩ | ⟨b, rfl, hb⟩
  · rcases b with _ | ⟨y, b⟩
    · simpa using hb
    · rw [List.cons_append, List.cons.injEq] at hb
      exact absurd (hb.2 ▸ by simp) hl
  · rcases b with _ | ⟨y, b⟩
    · simpa [eq_comm] using hb
    · rw [List.cons_append, List.cons.injEq] at hb
      exact absurd (hb.2 ▸ by simp) hl'

theorem IsLine.bounds {v : Int64} {l : Bytes} (h : IsLine v l) :
    ∀ b ∈ l, b = 13 ∨ b = 10 ∨ 43 ≤ b.toNat ∧ b.toNat ≤ 57 := by
  obtain ⟨number, hv, rfl⟩ := h
  intro b hb
  rcases List.mem_append.1 hb with hb | hb
  · exact .inr (.inr (parseI64_bounds hv b hb))
  · simp only [crlf, List.mem_cons, List.not_mem_nil, or_false] at hb
    rcases hb with hb | hb
    · exact .inl hb
    · exact .inr (.inl hb)

theorem IsLine.no_marker {v : Int64} {l : Bytes} (h : IsLine v l) : 36 ∉ l ∧ 42 ∉ l := by
  constructor <;> intro hb <;> simpa using h.bounds _ hb

theorem asRecord_eq_set {parts : List Bytes} {key value : Bytes}
    (h : asRecord parts = some (.set key value)) :
    ∃ cmd, parts = [cmd, key, value] ∧ recordName cmd = .set := by
  rcases parts with _ | ⟨cmd, args⟩
  · cases h
  unfold asRecord at h
  rcases hn : recordName cmd <;> rcases args with _ | ⟨a, _ | ⟨b, _ | ⟨c, args⟩⟩⟩ <;>
    simp only [hn] at h <;> try cases h
  · exact ⟨cmd, rfl, hn⟩
  · obtain ⟨absMs, -, hne⟩ := Option.map_eq_some_iff.1 h
    cases hne

theorem no_marker_of_recordName {cmd : Bytes} (h : recordName cmd = .set) : 36 ∉ cmd := by
  intro hmem
  have hmap : toAsciiUppercase 36 ∈ cmd.map toAsciiUppercase := List.mem_map_of_mem hmem
  unfold recordName at h
  simp only [] at h
  split_ifs at h with hset
  rw [hset] at hmap
  revert hmap
  decide

/-- The beginning of a damaged part is read as the end of the file. -/
theorem unfinished_of_prefix {p q : Bytes} (h : IsDamage (p ++ q)) (hp : p ≠ []) (hq : q ≠ []) :
    ∃ c rest, readRecord p = (.error (.unexpectedEof c), rest) := by
  obtain ⟨why, hread⟩ := h
  have hwhole := hread []
  rw [List.append_nil] at hwhole
  rcases hr : readRecord p with ⟨(c | ⟨why', c⟩) | _ | parts, rest⟩
  · exact ⟨c, rest, rfl⟩
  · obtain ⟨taken, rfl, rfl, -, hmore⟩ := isDamage_of_readRecord hr
    rw [List.append_assoc, hmore] at hwhole
    simp only [Prod.mk.injEq, List.append_eq_nil_iff] at hwhole
    exact absurd hwhole.2.2 hq
  · exact absurd (readRecord_end hr) hp
  · obtain ⟨taken, rfl, -, hrecord⟩ := isRecord_of_readRecord hr
    rw [List.append_assoc, hrecord] at hwhole
    simp at hwhole

def probe (x : UInt8) : AofRecord := .set [97] [x]

def probeBytes (x : UInt8) : Bytes := encodeLog [probe x]

theorem probeBytes_eq (x : UInt8) : probeBytes x
    = [42, 51, 13, 10, 36, 51, 13, 10, 83, 69, 84, 13, 10, 36, 49, 13, 10, 97, 13, 10, 36, 49, 13, 10, x,
      13, 10] := by
  have h₁ : Decimal.ofNat 1 = [49] := by decide
  have h₃ : Decimal.ofNat 3 = [51] := by decide
  simp [probeBytes, probe, encodeLog, encodeCommand, encodeBulk, AofRecord.parts, ascii, crlf, h₁, h₃]

section Probe

variable {x : UInt8} (hx : x = 120 ∨ x = 121)

include hx

theorem probe_end {e p : Bytes} (front : Bytes) (he : e <+: probeBytes x) (hne : e ≠ [])
    (h : p ++ e = front ++ [x, 13, 10]) : e = probeBytes x := by
  have htake := List.prefix_iff_eq_take.1 he
  have hshort : ∀ k < 27, k ≠ 0 → ¬((probeBytes x).take k <:+ [x, 13, 10])
      ∧ ¬([x, 13, 10] <:+ (probeBytes x).take k) := by
    rcases hx with rfl | rfl <;> decide
  have hsuf : e <:+ front ++ [x, 13, 10] := ⟨p, h⟩
  have hlen : (probeBytes x).length = 27 := by rw [probeBytes_eq]; rfl
  have hle := he.length_le
  by_contra hcut
  have hlt : e.length < 27 := by
    rcases Nat.lt_or_ge e.length 27 with hlt | hge
    · exact hlt
    · refine absurd ?_ hcut
      rw [htake, List.take_of_length_le (by omega)]
  have hpos : e.length ≠ 0 := fun hz => hne (List.length_eq_zero_iff.1 hz)
  have hk := hshort e.length hlt hpos
  rw [← htake] at hk
  rcases List.suffix_or_suffix_of_suffix hsuf (List.suffix_append front _) with hs | hs
  · exact hk.1 hs
  · exact hk.2 hs

theorem ne_probe {p e l : Bytes} {parts : List Bytes} (hl : IsFrame parts l) (hpe : l = p ++ e)
    (hp : p ≠ []) (he : e <+: probeBytes x) (hne : e ≠ []) : asRecord parts ≠ some (probe x) := by
  intro hset
  obtain ⟨cmd, rfl, hname⟩ := asRecord_eq_set hset
  obtain ⟨v, line, elements, hline, -, hbulks, rfl⟩ := hl
  obtain ⟨_, _, ⟨v₁, line₁, hline₁, -, rfl⟩, ⟨_, _, ⟨v₂, line₂, hline₂, -, rfl⟩,
    ⟨_, _, ⟨v₃, line₃, hline₃, -, rfl⟩, rfl, rfl⟩, rfl⟩, rfl⟩ := hbulks
  have hall : e = probeBytes x := probe_end hx
    (42 :: (line ++ (36 :: (line₁ ++ (cmd ++ crlf)) ++ (36 :: (line₂ ++ ([97] ++ crlf)) ++ 36 :: line₃))))
    he hne (hpe.symm.trans (by simp [crlf]))
  have hx36 : x ≠ 36 := by rcases hx with rfl | rfl <;> decide
  rw [hall, probeBytes_eq] at hpe
  -- The lengths have no marker, so the markers of both sides are at the same places.
  have h₃ : 42 :: (line ++ 36 :: (line₁ ++ (cmd ++ crlf)) ++ 36 :: (line₂ ++ ([97] ++ crlf)))
        = p ++ [42, 51, 13, 10, 36, 51, 13, 10, 83, 69, 84, 13, 10, 36, 49, 13, 10, 97, 13, 10]
      ∧ line₃ ++ ([x] ++ crlf) = [49, 13, 10, x, 13, 10] :=
    split_last 36 (by simpa using hpe) (by simp [crlf, hline₃.no_marker.1, Ne.symm hx36])
      (by simp [Ne.symm hx36])
  have h₂ : 42 :: (line ++ 36 :: (line₁ ++ (cmd ++ crlf)))
        = p ++ [42, 51, 13, 10, 36, 51, 13, 10, 83, 69, 84, 13, 10]
      ∧ line₂ ++ ([97] ++ crlf) = [49, 13, 10, 97, 13, 10] :=
    split_last 36 (by simpa using h₃.1) (by simp [crlf, hline₂.no_marker.1]) (by decide)
  have h₁ : 42 :: line = p ++ [42, 51, 13, 10]
      ∧ line₁ ++ (cmd ++ crlf) = [51, 13, 10, 83, 69, 84, 13, 10] :=
    split_last 36 (by simpa using h₂.1)
      (by simp [crlf, hline₁.no_marker.1, no_marker_of_recordName hname]) (by decide)
  have h₀ : [] = p ∧ line = [51, 13, 10] :=
    split_last 42 (by simpa using h₁.1) hline.no_marker.2 (by decide)
  exact hp h₀.1.symm

omit hx in
theorem recordsOf_eq_nil_of_not_mem {rest tail : Bytes}
    (h : Layout rest regions tail) (hstar : 42 ∉ rest) : recordsOf regions = [] := by
  rcases h with _ | _ | _ | ⟨hrecord, next⟩ | ⟨hd, hskip, next⟩
  · rfl
  · rfl
  · rfl
  · obtain ⟨l, ⟨v, line, elements, -, -, -, rfl⟩, hl⟩ := readRecord_iff.1 (hrecord [])
    rw [List.append_nil, List.append_nil] at hl
    rw [hl] at hstar
    exact absurd (by simp) hstar
  · exact absurd (by simp) hstar

/-- Behind a torn part the record is not read. -/
theorem probe_swallowed {p tail : Bytes} {c : ℕ} {rest : Bytes}
    (hp : readRecord p = (.error (.unexpectedEof c), rest))
    (h : Layout (p ++ probeBytes x) regions tail) :
    ∀ parts ∈ recordsOf regions, asRecord parts ≠ some (probe x) := by
  have hpne : p ≠ [] := by
    rintro rfl
    cases hp
  have hstar : ∀ e suffix : Bytes, e ++ suffix = probeBytes x → e ≠ [] → 42 ∉ suffix := by
    intro e suffix he hne
    obtain ⟨b, e, rfl⟩ := List.exists_cons_of_ne_nil hne
    have hrest : 42 ∉ (probeBytes x).tail := by
      rw [probeBytes_eq]
      rcases hx with rfl | rfl <;> decide
    rw [← he, List.cons_append, List.tail_cons, List.mem_append, not_or] at hrest
    exact hrest.2
  generalize hb : p ++ probeBytes x = b at h
  rcases h with _ | _ | _ | @⟨parts, taken, rest', regions, _, hrecord, next⟩ |
    @⟨taken, skipped, rest', regions, _, hd, hskip, next⟩
  · simp [recordsOf]
  · simp [recordsOf]
  · simp [recordsOf]
  · rcases List.append_eq_append_iff.1 hb with ⟨e, htaken, hprobe⟩ | ⟨q, hpq, -⟩
    · rcases e with _ | ⟨y, e⟩
      · rw [List.append_nil] at htaken
        have := hrecord []
        rw [htaken, List.append_nil, hp] at this
        cases this
      rw [recordsOf, recordsOf_eq_nil_of_not_mem next (hstar _ _ hprobe.symm (List.cons_ne_nil _ _))]
      intro parts' hparts
      rw [List.mem_singleton] at hparts
      subst hparts
      obtain ⟨l, hframe, hl⟩ := readRecord_iff.1 (hrecord [])
      rw [List.append_nil, List.append_nil] at hl
      exact ne_probe hx (hl ▸ hframe) htaken hpne ⟨_, hprobe.symm⟩ (List.cons_ne_nil _ _)
    · have := hrecord q
      rw [← hpq, hp] at this
      cases this
  · obtain ⟨why, hread⟩ := hd
    rw [List.append_assoc] at hb
    rcases List.append_eq_append_iff.1 hb with ⟨e, htaken, hprobe⟩ | ⟨q, hpq, -⟩
    · rcases e with _ | ⟨y, e⟩
      · rw [List.append_nil] at htaken
        have := hread []
        rw [htaken, List.append_nil, hp] at this
        cases this
      · exact absurd (by simp) (hstar _ _ hprobe.symm (List.cons_ne_nil _ _))
    · have := hread q
      rw [← hpq, hp] at this
      cases this

end Probe

/-! ## A value that is not stored -/

/-- The key is not stored with the value. -/
def Lacks (s : KvEngine) (key : Key) (value : Bytes) : Prop :=
  ∀ e, s.store.lookup key = some e → e.data ≠ value

section Lacks

variable {env : Env} {s s' : KvEngine} {key : Key} {value : Bytes}

theorem Lacks.erase (h : Lacks s key value) {k : Key} (hs : s'.store = s.store.erase k) :
    Lacks s' key value := by
  intro e he
  rw [hs] at he
  by_cases hk : key = k
  · rw [hk, AList.lookup_erase] at he
    cases he
  · rw [AList.lookup_erase_ne hk] at he
    exact h e he

theorem Lacks.insert (h : Lacks s key value) {k : Key} {e : ValueEntry}
    (hs : s'.store = s.store.insert k e) (hne : key = k → e.data ≠ value) : Lacks s' key value := by
  intro e' he
  rw [hs] at he
  by_cases hk : key = k
  · rw [hk, AList.lookup_insert, Option.some.injEq] at he
    rw [← he]
    exact hne hk
  · rw [AList.lookup_insert_ne hk] at he
    exact h e' he

theorem Lacks.applyRecord (h0 : s.eviction.maxMemory = 0) {parts : List Bytes}
    (h : Lacks s key value) (hset : asRecord parts ≠ some (.set key value)) :
    Lacks (applyRecord env s parts).2 key value := by
  rcases hr : asRecord parts with _ | r
  · obtain ⟨e, -, happly⟩ := applyRecord_of_none env s hr
    rw [happly]
    exact h
  rw [applyRecord_of_asRecord hr]
  rcases r with ⟨k, v⟩ | k | _ | ⟨k, absMs⟩ | k
  · rcases hv : KvEngine.validatePair k v with e | u
    · rw [applyRecord_set_refused hv]
      exact h
    · rw [applyRecord_set h0 hv]
      refine h.insert rfl fun hk hdata => hset ?_
      rw [hr, hk, ← hdata]
      rfl
  · rw [applyRecord_del]
    exact h.erase (del_store env s k)
  · rw [applyRecord_flushdb]
    intro e he
    cases he
  · rw [applyRecord_pexpireat]
    rcases expireAtMs_spec env s k absMs with
      ⟨he, hs⟩ | ⟨e, he, hx, hs⟩ | ⟨e, he, hx, hle, hs⟩ | ⟨e, he, hx, hlt, hs⟩ <;> rw [hs]
    · exact h
    · exact h.erase rfl
    · exact h.erase rfl
    · rw [deadlined, setDeadline_of_lookup _ he]
      exact h.insert rfl fun hk => h e (hk ▸ he)
  · rw [applyRecord_persist]
    rcases persist_spec env s k with
      ⟨he, hs⟩ | ⟨e, he, hx, hs⟩ | ⟨e, he, hx, hd, hs⟩ | ⟨e, he, hx, hd, hs⟩ <;> rw [hs]
    · exact h
    · exact h.erase rfl
    · exact h
    · rw [persisted, setDeadline_of_lookup _ he]
      exact h.insert rfl fun hk => h e (hk ▸ he)

theorem Lacks.applyParts : ∀ {records : List (List Bytes)} {s : KvEngine},
    s.eviction.maxMemory = 0 → Lacks s key value →
      (∀ parts ∈ records, asRecord parts ≠ some (.set key value)) →
      Lacks (applyParts env s records) key value
  | [], _, _, h, _ => h
  | parts :: records, s, h0, h, hset => by
    rw [List.forall_mem_cons] at hset
    change Lacks (FerrumKv.applyParts env (FerrumKv.applyRecord env s parts).2 records) key value
    exact Lacks.applyParts ((congrArg _ (applyRecord_eviction h0)).trans h0)
      (h.applyRecord h0 hset.1) hset.2

theorem Lacks.live (h : Lacks s key value) (t : ℕ) (d : Option ℕ) :
    live t s.store key ≠ some (value, d) := by
  intro hl
  rcases he : s.store.lookup key with _ | e
  · rw [live_of_lookup_none he] at hl
    cases hl
  · rw [live_of_lookup he, ValueEntry.shown] at hl
    split_ifs at hl
    cases hl
    exact h e he rfl

end Lacks

/-! ## Appending -/

/-- Whatever valid records are appended to the file, the next start shows what applying them to the
keyspace shows. -/
def Appendable (env : Env) (r : Replayed) : Prop :=
  ∀ log : List AofRecord, (∀ b ∈ log, b.Valid) →
    ∃ r', replay env (r.file ++ encodeLog log) KvEngine.new = .ok r'
      ∧ ∀ t, live t r'.engine.store = live t (applyAll env r.engine log).store

section Appendable

variable {env : Env} {file tail : Bytes} {regions : List Region} {r : Replayed}

theorem probe_valid {x : UInt8} : (probe x).Valid := rfl

theorem exists_lacks (s : KvEngine) : ∃ x, (x = 120 ∨ x = 121) ∧ Lacks s [97] [x] := by
  by_cases h : Lacks s [97] [120]
  · exact ⟨120, .inl rfl, h⟩
  refine ⟨121, .inr rfl, fun e he hdata => h fun e' he' hdata' => ?_⟩
  rw [he, Option.some.injEq] at he'
  rw [he', hdata'] at hdata
  exact absurd hdata (by decide)

theorem CutInside.kept (hs : Stands tail regions) (hc : CutInside regions) :
    ∃ before p, (regionBytes regions).take (cutAt 0 0 regions) = regionBytes before ++ p
      ∧ recordsOf before = recordsOf regions
      ∧ (∃ c rest, readRecord p = (.error (.unexpectedEof c), rest))
      ∧ ∀ next, Stands (p ++ next) before := by
  obtain ⟨before, taken, skipped, after, rfl, hlt, hgt⟩ := hc
  obtain ⟨hbefore, _ | _ | ⟨hd, -, -, -⟩⟩ := stands_append.1 hs
  obtain ⟨m, hm⟩ := Nat.exists_eq_add_of_le hlt.le
  have hnone := recordsOf_eq_nil (hgt.trans_le (Nat.add_le_add_left (Nat.le_add_right _ _) _))
  have hlen : (taken.take m).length = m := List.length_take_of_le (by omega)
  have hp : taken.take m ≠ [] := fun hnil => by
    rw [hnil, List.length_nil] at hlen
    omega
  have hq : taken.drop m ≠ [] := fun hnil => by
    have := List.drop_eq_nil_iff.1 hnil
    omega
  refine ⟨before, taken.take m, ?_, ?_, ?_, fun next => hbefore.congr fun hstar => ?_⟩
  · rw [take_regionBytes after hlt.le (hgt.trans_le (by simp [Region.bytes])), hm,
      Nat.add_sub_cancel_left, Region.bytes, List.take_append_of_le_length (by omega)]
  · rw [recordsOf_append, recordsOf, hnone, List.append_nil]
  · exact unfinished_of_prefix (by rwa [List.take_append_drop]) hp hq
  · have hb : regionBytes (.damaged taken skipped :: after) ++ tail
        = taken.take m ++ (taken.drop m ++ (skipped ++ (regionBytes after ++ tail))) := by
      rw [← List.append_assoc (taken.take m), List.take_append_drop]
      simp [regionBytes, Region.bytes]
    rw [hb, List.head?_append_of_ne_nil _ hp] at hstar
    rwa [List.head?_append_of_ne_nil _ hp]

theorem CutInside.not_appendable (hl : Layout file regions tail) (htail : tail ≠ [])
    (hc : CutInside regions) (hr : replay env file KvEngine.new = .ok r) : ¬Appendable env r := by
  intro happend
  obtain ⟨x, hx, hlacks⟩ := exists_lacks r.engine
  obtain ⟨r', hreplay, hlive⟩ := happend [probe x] (by simp [probe_valid])
  obtain ⟨before, p, hkept, hrecords, ⟨c, rest, hp⟩, hstands⟩ := hc.kept hl.stands
  have hnew : KvEngine.new.eviction.maxMemory = 0 := rfl
  obtain ⟨stats, hfirst⟩ := hl.replay_eq env hnew (hl.usable hnew hr)
  have hle := (cutAt_bounds regions (le_refl 0)).2
  rw [Nat.zero_add] at hle
  rw [hr, Except.ok.injEq] at hfirst
  subst hfirst
  obtain ⟨swallowed, tail', hnext⟩ := exists_layout (p ++ probeBytes x)
  have hwhole := (hstands (probeBytes x)).layout hnext
  have hfile : (if tail = [] then file else file.take (cutAt 0 0 regions)) ++ encodeLog [probe x]
      = regionBytes before ++ (p ++ probeBytes x) := by
    rw [if_neg htail, hl.bytes, List.take_append_of_le_length hle, hkept, List.append_assoc]
    rfl
  rw [hfile] at hreplay
  obtain ⟨stats', hsecond⟩ := hwhole.replay_eq env hnew (hwhole.usable hnew hreplay)
  rw [hreplay, Except.ok.injEq] at hsecond
  subst hsecond
  have h0 := applyParts_unlimited env (recordsOf regions) hnew
  have hmissing : Lacks (applyParts env KvEngine.new (recordsOf (before ++ swallowed))) [97] [x] := by
    rw [recordsOf_append, hrecords, applyParts_append]
    exact hlacks.applyParts h0 (probe_swallowed hx hp hnext)
  refine hmissing.live 0 none ?_
  rw [hlive 0]
  change live 0 (applyRecord env _ (probe x).parts).2.store [97] = _
  rw [probe, applyRecord_set h0 probe_valid]
  exact (live_insert 0 _ [97] _ [97]).trans (if_pos rfl)

/-- Records appended after a replay are all read back, unless the file had a tail and the cut fell
inside a damaged part. -/
theorem appendable_iff (hr : replay env file KvEngine.new = .ok r) :
    (∃ regions tail, Layout file regions tail) ∧ ∀ regions tail, Layout file regions tail →
      (Appendable env r ↔ ¬(tail ≠ [] ∧ CutInside regions)) := by
  refine ⟨exists_layout file, fun regions tail hl => ⟨fun happend hc => ?_, fun hc log hv => ?_⟩⟩
  · exact hc.2.not_appendable hl hc.1 hr happend
  · obtain ⟨r', hreplay, hengine⟩ := hl.replay_append hc rfl hr hv
    exact ⟨r', hreplay, fun t => by rw [hengine]⟩

theorem appendable_roughLog :
    ∃ r, replay (Env.steady 0) roughLog KvEngine.new = .ok r ∧ Appendable (Env.steady 0) r := by
  have hnew : KvEngine.new.eviction.maxMemory = 0 := rfl
  obtain ⟨stats, hreplay⟩ := layout_roughLog.replay_eq (Env.steady 0) hnew usable_roughRegions
  refine ⟨_, hreplay, (((appendable_iff hreplay).2 _ _ layout_roughLog).2 ?_)⟩
  rintro ⟨-, before, taken, skipped, after, hsplit, -, hgt⟩
  rcases before with _ | ⟨a, _ | ⟨b, _ | ⟨c, before⟩⟩⟩ <;> simp [roughRegions] at hsplit
  obtain ⟨rfl, ⟨rfl, rfl⟩, rfl⟩ := hsplit
  revert hgt
  decide

/-- Two damaged parts, bytes skipped behind the first, and a tail. -/
def twiceDamaged : Bytes := text "zzzz*1\r\n$9\r\n123456789XX*1"

/-- The file is cut inside the second damaged part, and a record appended to it is lost. -/
theorem append_swallowed :
    ∃ r r', replay (Env.steady 0) twiceDamaged KvEngine.new = .ok r
      ∧ r.file = text "zzzz*1\r\n$9\r\n12345678"
      ∧ replay (Env.steady 0) (r.file ++ encodeLog [.set [97] [120]]) KvEngine.new = .ok r'
      ∧ live 0 r'.engine.store [97] = none
      ∧ live 0 (applyAll (Env.steady 0) r.engine [.set [97] [120]]).store [97]
        = some ([120], none) :=
  ⟨_, _, rfl, rfl, rfl, rfl, rfl⟩

end Appendable

end FerrumKv
