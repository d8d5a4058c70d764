import FerrumKv.Connection
import FerrumKv.Proofs.Parser

/-!
# Reads and requests

The parser as the read loop sees it gives stable verdicts (`verdict_stable`), so a connection handles
the same requests in the same order however the stream is cut into reads, and is closed at the same
point (`chunking_independent`).
-/

namespace FerrumKv.Connection

open Protocol Framing

theorem verdict_item {float : FloatOps} {b : Bytes} {frame : Frame} {n : ℕ}
    (h : verdict float b = .item frame n) :
    ∃ p, parseFrame float b = .ok p ∧ p ≠ .incomplete ∧ p.consumed = n
      ∧ ∀ b', parseFrame float b' = .ok p → verdict float b' = .item frame n := by
  unfold verdict at h ⊢
  rcases hp : parseFrame float b with e | ⟨c, k⟩ | ⟨e, k⟩ | _ <;> rw [hp] at h <;> cases h
  · exact ⟨_, rfl, nofun, rfl, fun b' hb' => by rw [hb']⟩
  · exact ⟨_, rfl, nofun, rfl, fun b' hb' => by rw [hb']⟩

theorem parseFrame_ne_incomplete {float : FloatOps} {b : Bytes} (h : verdict float b ≠ .more) :
    parseFrame float b ≠ .ok .incomplete := by
  intro hp
  unfold verdict at h
  rw [hp] at h
  exact h rfl

theorem verdict_stable (float : FloatOps) : Stable (verdict float) where
  append b c h := by
    unfold verdict
    rw [parseFrame_append (parseFrame_ne_incomplete h) c]
  pos b frame n h := by
    obtain ⟨p, hp, hne, rfl, -⟩ := verdict_item h
    exact (parseFrame_take hp hne).1
  exact b frame n h := by
    obtain ⟨p, hp, hne, rfl, hv⟩ := verdict_item h
    obtain ⟨-, hle, htake⟩ := parseFrame_take hp hne
    exact ⟨hle, hv _ htake⟩
  nil := rfl

/-- The read loop over any reads is the drain of the whole stream, for any handling of requests. -/
theorem serve_eq {σ : Type} {float : FloatOps} {h : Handler Frame Failure σ} {s : σ}
    {reads : List Bytes} (hf : Fits (verdict float) h readBufMax reads.flatten s) :
    ∃ r, serve float h s reads = some r
      ∧ drain (verdict float) h (reads.flatten.length + 1) reads.flatten s = some r
      ∧ Drains (verdict float) h reads.flatten s r :=
  feedAll_eq (verdict_stable float) hf

theorem tooLarge_not_mem {float : FloatOps} {b : Bytes} {os : List Outcome}
    {r : List Outcome × Option Bytes} (hd : Drains (verdict float) recorder b os r)
    (hos : Outcome.tooLarge ∉ os) : Outcome.tooLarge ∉ r.1 := by
  have hitem : ∀ (os os' : List Outcome) (frame : Frame) (go : Bool),
      recorder.item os frame = (os', go) → Outcome.tooLarge ∉ os → Outcome.tooLarge ∉ os' := by
    intro os os' frame go h hos
    rcases frame with e | c <;> cases h <;> simpa using hos
  induction hd with
  | more _ => exact hos
  | item _ hx _ ih => exact ih (hitem _ _ _ _ hx hos)
  | leave _ hx => exact hitem _ _ _ _ hx hos
  | stop _ => simpa [recorder] using hos

/-- The parser's answers are stable, a request takes at least one byte, nothing is out of range, and a
stream whose units fit the buffer gives the same outcomes in every split into reads as in one piece,
none of them a request that is too large. -/
theorem chunking_independent (float : FloatOps) :
    (∀ b c, parseFrame float b ≠ .ok .incomplete → parseFrame float (b ++ c) = parseFrame float b)
      ∧ (∀ b p, parseFrame float b = .ok p → p ≠ .incomplete →
          0 < p.consumed ∧ p.consumed ≤ b.length)
      ∧ (∀ b, parseFrame float b ≠ .error .panic)
      ∧ ∀ reads, Fits (verdict float) recorder readBufMax reads.flatten [] →
          ∃ os rest, outcomes float reads = some (os, rest)
            ∧ drain (verdict float) recorder (reads.flatten.length + 1) reads.flatten []
                = some (os, rest)
            ∧ Outcome.tooLarge ∉ os := by
  refine ⟨fun b c h => parseFrame_append h c, ?_, parseFrame_ne_panic float, ?_⟩
  · intro b p hp hne
    have := parseFrame_take hp hne
    exact ⟨this.1, this.2.1⟩
  · intro reads hf
    obtain ⟨⟨os, rest⟩, hserve, hdrain, hd⟩ := serve_eq hf
    exact ⟨os, rest, hserve, hdrain, tooLarge_not_mem hd (by simp)⟩

/-- A `PING` that arrives in three reads, cut inside a length and inside the name. -/
def cutPing : List Bytes := [text "*1\r\n$", text "4\r\nPI", text "NG\r\n"]

theorem cutPing_fits (float : FloatOps) :
    Fits (verdict float) recorder readBufMax cutPing.flatten [] := by
  have hp : verdict float cutPing.flatten = .item (.ok (.ping none)) 14 := rfl
  have hx : recorder.item [] (.ok (.ping none)) = ([.command (.ping none)], true) := rfl
  exact .item hp (by decide) hx (.more rfl (by decide))

theorem chunking_independent_cutPing :
    ∃ os rest, outcomes (Env.steady 0).float cutPing = some (os, rest)
      ∧ drain (verdict (Env.steady 0).float) recorder (cutPing.flatten.length + 1) cutPing.flatten []
          = some (os, rest)
      ∧ Outcome.tooLarge ∉ os :=
  (chunking_independent (Env.steady 0).float).2.2.2 cutPing (cutPing_fits _)

end FerrumKv.Connection
