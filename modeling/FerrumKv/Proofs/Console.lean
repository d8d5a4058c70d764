import FerrumKv.Console
import FerrumKv.Proofs.Argv

/-!
# The console reads back what was quoted

A line that quotes its arguments is cut into exactly these arguments, whatever bytes they have, and
the frame that is made of them gives the command that a client gets which sends them over the wire
(`console_reaches_wire`).
-/

namespace FerrumKv.Dashboard

open Protocol (parseFrame buildCommand finishFrame)

/-! ## Tokens -/

/-- Inside quotes the tokeniser collects an argument up to the closing quote. -/
theorem tokenize_escaped (rest : Bytes) (argv : List Bytes) : ∀ arg cur : Bytes,
    tokenize (arg.flatMap escapedByte ++ 34 :: rest) true true cur argv
      = tokenize rest false true (cur ++ arg) argv
  | [], cur => by simp [tokenize]
  | b :: arg, cur => by
    have ih := tokenize_escaped rest argv arg (cur ++ [b])
    rw [List.append_assoc, List.singleton_append] at ih
    rw [List.flatMap_cons, List.append_assoc, ← ih, escapedByte]
    split_ifs with hb
    · simp [tokenize]
    · rw [not_or] at hb
      rw [List.singleton_append, tokenize]
      · exact hb.1
      · intro c rest' h92
        exact absurd h92 hb.2

theorem tokenize_quoted (arg rest : Bytes) (argv : List Bytes) :
    tokenize (quotedArgument arg ++ rest) false false [] argv
      = tokenize rest false true arg argv := by
  rw [quotedArgument, List.cons_append, tokenize, List.append_assoc, List.singleton_append,
    tokenize_escaped, List.nil_append]

theorem tokenize_blank {b : UInt8} (hb : isBlank b = true) (rest : Bytes) (inToken : Bool)
    (cur : Bytes) (argv : List Bytes) :
    tokenize (b :: rest) false inToken cur argv
      = if inToken then tokenize rest false false [] (argv ++ [cur])
        else tokenize rest false false cur argv := by
  have hblank : b = 32 ∨ b = 9 ∨ b = 13 ∨ b = 10 := by simpa [isBlank, or_assoc] using hb
  rw [tokenize, if_pos hblank]
  rintro rfl
  exact absurd hblank (by decide)

theorem tokenize_blanks (rest : Bytes) (argv : List Bytes) : ∀ {blanks : Bytes},
    (∀ b ∈ blanks, isBlank b = true) →
      tokenize (blanks ++ rest) false false [] argv = tokenize rest false false [] argv
  | [], _ => rfl
  | b :: blanks, h => by
    rw [List.forall_mem_cons] at h
    rw [List.cons_append, tokenize_blank h.1]
    exact tokenize_blanks rest argv h.2

theorem tokenize_separated {blanks : Bytes} (hne : blanks ≠ [])
    (h : ∀ b ∈ blanks, isBlank b = true) (rest arg : Bytes) (argv : List Bytes) :
    tokenize (blanks ++ rest) false true arg argv
      = tokenize rest false false [] (argv ++ [arg]) := by
  obtain ⟨b, blanks, rfl⟩ := List.exists_cons_of_ne_nil hne
  rw [List.forall_mem_cons] at h
  rw [List.cons_append, tokenize_blank h.1]
  exact tokenize_blanks rest _ h.2

theorem QuotedLine.tokenize {argv : List Bytes} {line : Bytes} (h : QuotedLine argv line) :
    ∀ done : List Bytes, tokenize line false false [] done = some (done ++ argv) := by
  induction h with
  | last arg =>
    intro done
    have hend := tokenize_quoted arg [] done
    rw [List.append_nil] at hend
    rw [hend]
    rfl
  | @cons arg blanks line argv hne hblanks _ ih =>
    intro done
    rw [tokenize_quoted, tokenize_separated hne hblanks, ih, List.append_assoc,
      List.singleton_append]

theorem valid_quotedArgument {arg : Bytes} (h : Utf8.valid arg = true) :
    Utf8.valid (quotedArgument arg) = true := by
  have hlow : ∀ b < (0x80 : UInt8), ∀ c ∈ escapedByte b, c < 0x80 := by
    intro b hb c hc
    unfold escapedByte at hc
    split_ifs at hc
    · rcases List.mem_cons.1 hc with rfl | hc
      · decide
      · rwa [List.mem_singleton.1 hc]
    · rwa [List.mem_singleton.1 hc]
  have hhigh : ∀ b : UInt8, 0x80 ≤ b → escapedByte b = [b] := by
    rintro b hb
    refine if_neg ?_
    rintro (rfl | rfl)
    · exact absurd hb (by decide)
    · exact absurd hb (by decide)
  have hquote : Utf8.valid [34] = true := rfl
  rw [quotedArgument, ← List.singleton_append, Utf8.valid_append hquote,
    Utf8.valid_append (Utf8.valid_flatMap hlow hhigh h), hquote]

theorem valid_blanks {blanks : Bytes} (h : ∀ b ∈ blanks, isBlank b = true) :
    Utf8.valid blanks = true := by
  refine Utf8.valid_of_ascii blanks fun b hb => ?_
  have hblank : b = 32 ∨ b = 9 ∨ b = 13 ∨ b = 10 := by simpa [isBlank, or_assoc] using h b hb
  rcases hblank with rfl | rfl | rfl | rfl <;> decide

theorem QuotedLine.valid {argv : List Bytes} {line : Bytes} (h : QuotedLine argv line) :
    (∀ arg ∈ argv, Utf8.valid arg = true) → Utf8.valid line = true := by
  induction h with
  | last arg => exact fun hargs => valid_quotedArgument (hargs arg (List.mem_singleton_self arg))
  | cons arg hne hblanks _ ih =>
    intro hargs
    rw [List.forall_mem_cons] at hargs
    rw [Utf8.valid_append (valid_quotedArgument hargs.1), Utf8.valid_append (valid_blanks hblanks),
      ih hargs.2]

/-! ## Frames -/

theorem encodeRespArray_eq (argv : List Bytes) : encodeRespArray argv = encodeCommand argv := rfl

theorem finishFrame_cons (float : FloatOps) (name : Bytes) (args : List Bytes) (n : ℕ) :
    finishFrame float (name :: args) n = .ok (frameOutcome n (buildCommand float name args)) := by
  rw [finishFrame]
  cases buildCommand float name args <;> rfl

/-- What the parser makes of the bytes of a list of arguments within its limits. -/
theorem parseFrame_of_isFrame (float : FloatOps) {name : Bytes} {args : List Bytes}
    (h : Protocol.Framable (name :: args)) {frame : Bytes} (hframe : IsFrame (name :: args) frame)
    (rest : Bytes) :
    parseFrame float (frame ++ rest)
      = .ok (frameOutcome frame.length (buildCommand float name args)) := by
  have hread : Protocol.readFrame (frame ++ rest) 0 = .ok (some (name :: args, frame.length)) :=
    Protocol.readFrame_iff.2 ⟨h, by simp, by rwa [List.take_left]⟩
  rw [Protocol.parseFrame_eq, hread, Protocol.frameOf, finishFrame_cons]

theorem parseFrame_encodeRespArray (float : FloatOps) {name : Bytes} {args : List Bytes}
    (h : Protocol.Framable (name :: args)) :
    parseFrame float (encodeRespArray (name :: args))
      = .ok (frameOutcome (encodeRespArray (name :: args)).length (buildCommand float name args)) := by
  have hread := Protocol.readFrame_encodeCommand h []
  rw [List.append_nil] at hread
  rw [encodeRespArray_eq, Protocol.parseFrame_eq, hread, Protocol.frameOf, finishFrame_cons]

/-- The console executes the command that the quoted arguments build, and answers with the error of
those that build none. -/
theorem runCommand_quoted (o : Outside) (s : Server) {body name line : Bytes} {args : List Bytes}
    (hbody : (parseForm body).lookup (text "command") = some line)
    (h : QuotedLine (name :: args) line) (hparts : Protocol.Framable (name :: args)) :
    runCommand o s body = match buildCommand (o.reading 0).env.float name args with
      | .ok cmd => runParsed o s cmd
      | .error e => (jsonError 400 (ServerError.ofCommand e).display, s) := by
  have htokens : tokenizeCommand line = some (name :: args) := h.tokenize []
  simp only [runCommand, hbody, htokens, ← encodeRespArray_eq, parseFrame_encodeRespArray _ hparts]
  cases buildCommand (o.reading 0).env.float name args <;> rfl

/-- The line that quotes the arguments is read back as they are; and within the limits of the
parser their frame is consumed whole, with the outcome of `build_command` that every other frame of
the same arguments has on the wire, and that outcome is what the console executes or answers. -/
theorem console_reaches_wire (float : FloatOps) (name : Bytes) (args : List Bytes) (line : Bytes)
    (h : QuotedLine (name :: args) line) :
    tokenizeCommand line = some (name :: args)
      ∧ ((∀ arg ∈ name :: args, Utf8.valid arg = true) → Utf8.valid line = true)
      ∧ (Protocol.Framable (name :: args) →
          parseFrame float (encodeRespArray (name :: args))
              = .ok (frameOutcome (encodeRespArray (name :: args)).length
                (buildCommand float name args))
            ∧ (∀ frame rest, IsFrame (name :: args) frame →
                parseFrame float (frame ++ rest)
                  = .ok (frameOutcome frame.length (buildCommand float name args)))
            ∧ ∀ (o : Outside) (s : Server) (body : Bytes),
                (parseForm body).lookup (text "command") = some line →
                runCommand o s body = match buildCommand (o.reading 0).env.float name args with
                  | .ok cmd => runParsed o s cmd
                  | .error e => (jsonError 400 (ServerError.ofCommand e).display, s)) :=
  ⟨h.tokenize [], h.valid, fun hparts => ⟨parseFrame_encodeRespArray float hparts,
    fun _ rest hframe => parseFrame_of_isFrame float hparts hframe rest,
    fun o s _ hbody => runCommand_quoted o s hbody h hparts⟩⟩

/-- `SET "a\"b"` with an empty argument after a tab and a line break. -/
theorem console_reaches_wire_set :
    tokenizeCommand (text "\"SET\" \"a\\\"b\"\t\n\"\"") = some [text "SET", [97, 34, 98], []]
      ∧ parseFrame (Env.steady 0).float (encodeRespArray [text "SET", [97, 34, 98], []])
          = .ok (.complete (.set [97, 34, 98] []) 28) := by
  have hone : ∀ b ∈ [32], isBlank b = true := List.all_eq_true.1 rfl
  have htwo : ∀ b ∈ [9, 10], isBlank b = true := List.all_eq_true.1 rfl
  have hline : QuotedLine [text "SET", [97, 34, 98], []]
      (text "\"SET\" \"a\\\"b\"\t\n\"\"") :=
    .cons (text "SET") (List.cons_ne_nil _ _) hone
      (.cons [97, 34, 98] (List.cons_ne_nil _ _) htwo (.last []))
  obtain ⟨htokens, -, hframe⟩ := console_reaches_wire (Env.steady 0).float _ _ _ hline
  exact ⟨htokens, (hframe ⟨by decide, by decide, by decide⟩).1⟩

end FerrumKv.Dashboard
