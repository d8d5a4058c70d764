import Mathlib.Tactic

/-!
# Buffered writes to a file

A file that is only appended to, how much of it a completed sync covers, and a bounded buffer in
front of it. The file takes all of a write or, where the write fails, an initial part of it; what a
flush could not write stays in the buffer. File and buffer together are `contents`. A flush does not
change them, and a write adds an initial part of what was written: all of it if it succeeds, and
none of it if it fails and was short enough to be buffered (`Writes.part`).
-/

namespace Buffered

structure Writer (α : Type*) where
  file : List α := []
  synced : ℕ := 0
  buffer : List α := []
  deriving DecidableEq, Repr

variable {α : Type*}

/-- What the file takes of a write: `limit` is where the write fails, if it does. -/
def accepted (limit : Option ℕ) (xs : List α) : List α :=
  match limit with
  | none => xs
  | some n => xs.take n

/-- Whether a write gets to its end. -/
def fits (limit : Option ℕ) (xs : List α) : Bool :=
  match limit with
  | none => true
  | some n => decide (xs.length ≤ n)

namespace Writer

variable (w : Writer α)

def contents : List α := w.file ++ w.buffer

def put (xs : List α) (limit : Option ℕ) : Bool × Writer α :=
  (fits limit xs, { w with file := w.file ++ accepted limit xs })

def push (xs : List α) : Writer α := { w with buffer := w.buffer ++ xs }

def flushBuf (limit : Option ℕ) : Bool × Writer α :=
  (fits limit w.buffer,
    { w with
      file := w.file ++ accepted limit w.buffer
      buffer := w.buffer.drop (accepted limit w.buffer).length })

def makeRoom (capacity n : ℕ) (limit : Option ℕ) : Bool × Writer α :=
  if capacity - w.buffer.length < n then w.flushBuf limit else (true, w)

/-- Puts what is as long as the buffer past it, and the rest into it. -/
def place (capacity : ℕ) (xs : List α) (limit : Option ℕ) : Bool × Writer α :=
  if capacity ≤ xs.length then w.put xs limit else (true, w.push xs)

def writeAll (capacity : ℕ) (xs : List α) (room direct : Option ℕ) : Bool × Writer α :=
  if xs.length < capacity - w.buffer.length then (true, w.push xs)
  else
    match w.makeRoom capacity xs.length room with
    | (true, w) => w.place capacity xs direct
    | (false, w) => (false, w)

def sync (ok : Bool) : Writer α := { w with synced := if ok then w.file.length else w.synced }

/-- Everything written so far is in the file and survives. -/
def Saved : Prop := w.buffer = [] ∧ w.synced = w.file.length

/-- What a crash can leave of the file. -/
def CrashImage (xs : List α) : Prop := w.file.take w.synced <+: xs ∧ xs <+: w.file

end Writer

section Accepted

variable {limit : Option ℕ} {xs : List α}

theorem accepted_prefix : accepted limit xs <+: xs := by
  cases limit with
  | none => exact List.prefix_rfl
  | some n => exact List.take_prefix n xs

@[simp] theorem accepted_nil : accepted limit ([] : List α) = [] :=
  List.prefix_nil.1 accepted_prefix

theorem accepted_append_drop : accepted limit xs ++ xs.drop (accepted limit xs).length = xs := by
  have h : accepted limit xs = xs.take (accepted limit xs).length :=
    List.prefix_iff_eq_take.1 accepted_prefix
  nth_rewrite 1 [h]
  exact List.take_append_drop _ xs

theorem accepted_eq_iff : accepted limit xs = xs ↔ fits limit xs = true := by
  cases limit with
  | none => simp [accepted, fits]
  | some n => simp [accepted, fits]

end Accepted

/-! ## Flushes -/

/-- What one operation on a writer keeps: the file grows, and what is synced stays so. -/
structure Extends (w w' : Writer α) : Prop where
  file : w.file <+: w'.file
  synced : w.synced ≤ w'.synced
  within : w.synced ≤ w.file.length → w'.synced ≤ w'.file.length

theorem Extends.refl (w : Writer α) : Extends w w := ⟨List.prefix_rfl, le_rfl, id⟩

theorem Extends.trans {w w' w'' : Writer α} (h : Extends w w') (h' : Extends w' w'') :
    Extends w w'' :=
  ⟨h.file.trans h'.file, h.synced.trans h'.synced, fun hw => h'.within (h.within hw)⟩

theorem Extends.append {w w' : Writer α} {xs : List α} (hf : w'.file = w.file ++ xs)
    (hs : w'.synced = w.synced) : Extends w w' where
  file := hf ▸ List.prefix_append _ _
  synced := hs.ge
  within h := by
    rw [hs, hf, List.length_append]
    omega

namespace Writer

variable (w : Writer α) (limit : Option ℕ)

@[simp] theorem contents_flushBuf : (w.flushBuf limit).2.contents = w.contents := by
  simp only [flushBuf, contents, List.append_assoc, accepted_append_drop]

theorem flushBuf_buffer (h : (w.flushBuf limit).1 = true) : (w.flushBuf limit).2.buffer = [] := by
  simp only [flushBuf] at h ⊢
  rw [accepted_eq_iff.2 h, List.drop_length]

theorem flushBuf_extends : Extends w (w.flushBuf limit).2 := .append rfl rfl

theorem length_flushBuf_buffer_le : (w.flushBuf limit).2.buffer.length ≤ w.buffer.length := by
  simp only [flushBuf, List.length_drop]
  omega

@[simp] theorem contents_sync (ok : Bool) : (w.sync ok).contents = w.contents := rfl

theorem sync_extends (ok : Bool) (h : w.synced ≤ w.file.length) : Extends w (w.sync ok) := by
  refine ⟨List.prefix_rfl, ?_, fun _ => ?_⟩ <;> cases ok <;> simp [sync, h]

/-- A flush that succeeds, and the sync after it. -/
theorem saved_of_flush (h : (w.flushBuf limit).1 = true) :
    ((w.flushBuf limit).2.sync true).Saved :=
  ⟨w.flushBuf_buffer limit h, rfl⟩

variable {w}

theorem Saved.contents (h : w.Saved) : w.file = w.contents := by
  rw [Writer.contents, h.1, List.append_nil]

theorem Saved.flushBuf (h : w.Saved) (limit : Option ℕ) : (w.flushBuf limit).2.Saved := by
  refine ⟨?_, ?_⟩ <;> simp only [Writer.flushBuf, h.1, accepted_nil, List.append_nil, List.drop_nil]
  exact h.2

/-- A crash keeps what was saved before. -/
theorem CrashImage.of_extends {w' : Writer α} {p : List α} (hw : w.Saved) (h : Extends w w')
    (hp : w'.CrashImage p) : w.contents <+: p := by
  have htake : w.file <+: w'.file.take w'.synced := by
    rw [List.prefix_take_iff]
    exact ⟨h.file, hw.2 ▸ h.synced⟩
  exact hw.contents ▸ htake.trans hp.1

end Writer

/-! ## Writes -/

/-- What a write does: it goes into the buffer, which has room for it, or past the buffer, which is
then empty; before that the buffer may have been flushed, and if that fails the write does. -/
inductive Writes (capacity : ℕ) (xs : List α) : Writer α → Bool × Writer α → Prop
  | push {w : Writer α}
    (h : w.buffer.length ≤ capacity → w.buffer.length + xs.length ≤ capacity) :
    Writes capacity xs w (true, w.push xs)
  | put {w : Writer α} (limit : Option ℕ) (hb : w.buffer = [] ∨ xs = [])
    (hlen : capacity ≤ xs.length) : Writes capacity xs w (w.put xs limit)
  | flushed {w : Writer α} (limit : Option ℕ) (hok : (w.flushBuf limit).1 = true)
    {r : Bool × Writer α} (h : Writes capacity xs (w.flushBuf limit).2 r) : Writes capacity xs w r
  | failed {w : Writer α} (limit : Option ℕ) (hok : (w.flushBuf limit).1 = false) :
    Writes capacity xs w (false, (w.flushBuf limit).2)

/-- What a write of `xs` adds to the contents, by whether it succeeds. -/
structure Part (capacity : ℕ) (xs : List α) (ok : Bool) (p : List α) : Prop where
  front : p <+: xs
  whole : ok = true → p = xs
  short : ok = false → xs.length < capacity → p = []

section Writes

variable {w : Writer α} {capacity : ℕ} {xs : List α} {r : Bool × Writer α}

theorem writes_place (hb : capacity ≤ xs.length → w.buffer = [] ∨ xs = [])
    (hroom : xs.length < capacity → w.buffer.length ≤ capacity →
      w.buffer.length + xs.length ≤ capacity) (limit : Option ℕ) :
    Writes capacity xs w (w.place capacity xs limit) := by
  unfold Writer.place
  split
  · exact .put limit (hb ‹_›) ‹_›
  · exact .push (hroom (by omega))

theorem writes_writeAll (w : Writer α) (capacity : ℕ) (xs : List α) (room direct : Option ℕ) :
    Writes capacity xs w (w.writeAll capacity xs room direct) := by
  unfold Writer.writeAll Writer.makeRoom
  by_cases hfast : xs.length < capacity - w.buffer.length
  · rw [if_pos hfast]
    exact .push (by omega)
  rw [if_neg hfast]
  by_cases hroom : capacity - w.buffer.length < xs.length
  · rw [if_pos hroom]
    rcases hf : w.flushBuf room with ⟨_ | _, w'⟩
    · have h : Writes capacity xs w (false, (w.flushBuf room).2) := .failed room (by rw [hf])
      rwa [hf] at h
    · refine .flushed room (by rw [hf]) ?_
      have hnil := w.flushBuf_buffer room (by rw [hf])
      rw [hf] at hnil ⊢
      refine writes_place (fun _ => .inl hnil) (fun hlt _ => ?_) direct
      rw [hnil, List.length_nil]
      omega
  · rw [if_neg hroom]
    refine writes_place (fun hlen => ?_) (fun hlt _ => by omega) direct
    by_cases hx : xs = []
    · exact .inr hx
    · have hpos := List.length_pos_iff.2 hx
      exact .inl (List.length_eq_zero_iff.1 (by omega))

theorem Writes.part (h : Writes capacity xs w r) :
    ∃ p, r.2.contents = w.contents ++ p ∧ Part capacity xs r.1 p := by
  induction h with
  | push =>
    exact ⟨xs, (List.append_assoc _ _ _).symm, List.prefix_rfl, fun _ => rfl, nofun⟩
  | @put w limit hb hlen =>
    refine ⟨accepted limit xs, ?_, accepted_prefix, accepted_eq_iff.2, fun _ hlt => by omega⟩
    rcases hb with hb | rfl
    · simp only [Writer.put, Writer.contents, hb, List.append_nil]
    · simp only [Writer.put, Writer.contents, accepted_nil, List.append_nil]
  | @flushed w limit _ _ _ ih => rwa [w.contents_flushBuf] at ih
  | @failed w limit _ => exact ⟨[], by simp, List.nil_prefix, nofun, fun _ _ => rfl⟩

theorem Writes.extends (h : Writes capacity xs w r) : Extends w r.2 := by
  induction h with
  | push => exact .append (List.append_nil _).symm rfl
  | put => exact .append rfl rfl
  | @flushed w limit _ _ _ ih => exact (w.flushBuf_extends limit).trans ih
  | @failed w limit _ => exact w.flushBuf_extends limit

theorem Writes.buffer_le (h : Writes capacity xs w r) (hw : w.buffer.length ≤ capacity) :
    r.2.buffer.length ≤ capacity := by
  induction h with
  | push h =>
    simp only [Writer.push, List.length_append]
    exact h hw
  | put => exact hw
  | @flushed w limit _ _ _ ih => exact ih ((w.length_flushBuf_buffer_le limit).trans hw)
  | @failed w limit _ => exact (w.length_flushBuf_buffer_le limit).trans hw

end Writes

end Buffered
