import FerrumKv.GlobSpec

/-!
# The glob matcher

The matcher accepts exactly the texts that split into pieces of the pattern's tokens
(`globGo_iff`). The matcher with cursors gives the same answers (`globLoop_eq`), so it ends and
reads no byte outside of the pattern or the text; `glob_exact` has both.
-/

namespace FerrumKv

/-! ## Classes -/

/-- The byte `x` of a class stands for itself before `rest`: it starts no escape and no range. -/
def SingleMember (x : UInt8) (rest : Bytes) : Prop :=
  (x = 92 → rest = []) ∧ ∀ z rest', rest = 45 :: z :: rest' → z = 93

section Equations

variable {c x y z : UInt8} {rest : Bytes}

theorem scanClass_close : scanClass c (93 :: rest) = some (false, rest) := by
  rcases rest with _ | ⟨y, _ | ⟨z, rest⟩⟩ <;> rfl

theorem readClass_close : readClass (93 :: rest) = some ([], rest) := by
  rcases rest with _ | ⟨y, _ | ⟨z, rest⟩⟩ <;> rfl

theorem scanClass_escape : scanClass c (92 :: y :: rest)
    = (scanClass c rest).map fun r => (decide (c = y) || r.1, r.2) := by
  rcases rest with _ | ⟨z, rest⟩ <;> rfl

theorem readClass_escape : readClass (92 :: y :: rest)
    = (readClass rest).map fun r => (.byte y :: r.1, r.2) := by
  rcases rest with _ | ⟨z, rest⟩ <;> rfl

theorem scanClass_range (hx : x ≠ 93) (hesc : x ≠ 92) (hz : z ≠ 93) :
    scanClass c (x :: 45 :: z :: rest)
      = (scanClass c rest).map fun r => (inRange x z c || r.1, r.2) :=
  (if_neg hx).trans ((if_neg hesc).trans (if_pos ⟨rfl, hz⟩))

theorem readClass_range (hx : x ≠ 93) (hesc : x ≠ 92) (hz : z ≠ 93) :
    readClass (x :: 45 :: z :: rest) = (readClass rest).map fun r => (.range x z :: r.1, r.2) :=
  (if_neg hx).trans ((if_neg hesc).trans (if_pos ⟨rfl, hz⟩))

theorem SingleMember.ne_escape (h : SingleMember x (y :: rest)) : x ≠ 92 := fun hx => by
  simpa using h.1 hx

theorem SingleMember.not_range (h : SingleMember x (y :: z :: rest)) : ¬(y = 45 ∧ z ≠ 93) :=
  fun hyz => hyz.2 (h.2 z rest (by rw [hyz.1]))

theorem scanClass_single (hx : x ≠ 93) (h : SingleMember x rest) :
    scanClass c (x :: rest) = (scanClass c rest).map fun r => (decide (c = x) || r.1, r.2) := by
  rcases rest with _ | ⟨y, _ | ⟨z, rest⟩⟩
  · exact if_neg hx
  · exact (if_neg hx).trans (if_neg h.ne_escape)
  · exact (if_neg hx).trans ((if_neg h.ne_escape).trans (if_neg h.not_range))

theorem readClass_single (hx : x ≠ 93) (h : SingleMember x rest) :
    readClass (x :: rest) = (readClass rest).map fun r => (.byte x :: r.1, r.2) := by
  rcases rest with _ | ⟨y, _ | ⟨z, rest⟩⟩
  · exact if_neg hx
  · exact (if_neg hx).trans (if_neg h.ne_escape)
  · exact (if_neg hx).trans ((if_neg h.ne_escape).trans (if_neg h.not_range))

end Equations

@[elab_as_elim]
theorem class_induction {P : Bytes → Prop} (nil : P []) (close : ∀ rest, P (93 :: rest))
    (escape : ∀ y rest, P rest → P (92 :: y :: rest))
    (range : ∀ x z rest, x ≠ 93 → x ≠ 92 → z ≠ 93 → P rest → P (x :: 45 :: z :: rest))
    (single : ∀ x rest, x ≠ 93 → SingleMember x rest → P rest → P (x :: rest)) (pat : Bytes) :
    P pat := by
  induction pat using readClass.induct with
  | case1 => exact nil
  | case2 rest => exact close rest
  | case3 x hx ih => exact single x [] hx ⟨fun _ => rfl, fun _ _ h => by cases h⟩ ih
  | case4 y rest _ ih => exact escape y rest ih
  | case5 x y hesc hx ih =>
    exact single x [y] hx ⟨fun h => absurd h hesc, fun _ _ h => by cases h⟩ ih
  | case6 x y hesc z rest hrange hx ih =>
    obtain ⟨rfl, hz⟩ := hrange
    exact range x z rest hx hesc hz ih
  | case7 x y hesc z rest hrange hx ih =>
    refine single x (y :: z :: rest) hx ⟨fun h => absurd h hesc, fun z' rest' h => ?_⟩ ih
    obtain ⟨rfl, rfl, rfl⟩ := by simpa using h
    by_contra hz
    exact hrange ⟨rfl, hz⟩

/-- Scanning a class for a byte is reading its members and looking among them. -/
theorem scanClass_eq (c : UInt8) (pat : Bytes) :
    scanClass c pat = (readClass pat).map fun r => (r.1.any (·.has c), r.2) := by
  induction pat using class_induction with
  | nil => rfl
  | close rest =>
    rw [scanClass_close, readClass_close]
    rfl
  | escape y rest ih =>
    rw [scanClass_escape, readClass_escape, ih, Option.map_map, Option.map_map]
    rfl
  | range x z rest hx hesc hz ih =>
    rw [scanClass_range hx hesc hz, readClass_range hx hesc hz, ih, Option.map_map, Option.map_map]
    rfl
  | single x rest hx h ih =>
    rw [scanClass_single hx h, readClass_single hx h, ih, Option.map_map, Option.map_map]
    rfl

theorem readClass_length {pat rest : Bytes} {members : List ClassMember}
    (h : readClass pat = some (members, rest)) : rest.length < pat.length := by
  have hmap : ∀ {l : Bytes} {m : ClassMember} {members : List ClassMember},
      ((readClass l).map fun r => (m :: r.1, r.2)) = some (members, rest) →
        ∃ members', readClass l = some (members', rest) := by
    intro l m members h
    obtain ⟨⟨members', rest'⟩, hr, heq⟩ := Option.map_eq_some_iff.1 h
    obtain ⟨-, rfl⟩ := Prod.mk.inj heq
    exact ⟨members', hr⟩
  induction pat using class_induction generalizing members with
  | nil => cases h
  | close rest' =>
    rw [readClass_close] at h
    cases h
    simp
  | escape y rest' ih =>
    obtain ⟨_, hr⟩ := hmap (readClass_escape.symm.trans h)
    have := ih hr
    simp only [List.length_cons]
    omega
  | range x z rest' hx hesc hz ih =>
    obtain ⟨_, hr⟩ := hmap ((readClass_range hx hesc hz).symm.trans h)
    have := ih hr
    simp only [List.length_cons]
    omega
  | single x rest' hx hs ih =>
    obtain ⟨_, hr⟩ := hmap ((readClass_single hx hs).symm.trans h)
    have := ih hr
    simp only [List.length_cons]
    omega

theorem length_classBody (pat : Bytes) : (classBody pat).length ≤ pat.length := by
  unfold classBody
  split_ifs
  · rw [List.length_tail]
    omega
  · exact le_rfl

theorem length_afterClass {pat rest : Bytes} {members : List ClassMember}
    (h : readClass (classBody pat) = some (members, rest)) :
    rest.length < pat.length :=
  (readClass_length h).trans_le (length_classBody pat)

/-! ## Tokens -/

/-- Fuel for every byte is as good as any more. -/
theorem tokensFrom_congr : ∀ (fuel fuel' : ℕ) (pat : Bytes), pat.length ≤ fuel →
    pat.length ≤ fuel' → tokensFrom fuel pat = tokensFrom fuel' pat
  | 0, fuel', pat, h, _ => by
    rw [List.length_eq_zero_iff.1 (Nat.le_zero.1 h)]
    cases fuel' <;> rfl
  | fuel + 1, 0, pat, _, h => by
    rw [List.length_eq_zero_iff.1 (Nat.le_zero.1 h)]
    rfl
  | fuel + 1, fuel' + 1, [], _, _ => rfl
  | fuel + 1, fuel' + 1, c :: pat, h, h' => by
    rw [List.length_cons, Nat.add_le_add_iff_right] at h h'
    have go : ∀ rest : Bytes, rest.length ≤ pat.length →
        tokensFrom fuel rest = tokensFrom fuel' rest := fun rest hr =>
      tokensFrom_congr fuel fuel' rest (hr.trans h) (hr.trans h')
    rw [tokensFrom, tokensFrom, go pat le_rfl, go pat.tail (by simp)]
    split_ifs
    · rfl
    · rfl
    · rfl
    · generalize hread : readClass _ = r
      rcases r with _ | ⟨members, rest⟩
      · rfl
      · exact congrArg (_ :: ·) (go rest (length_afterClass hread).le)
    · rfl

section Tokens

variable {c : UInt8} {pat rest : Bytes} {members : List ClassMember}

theorem globTokens_star : globTokens (42 :: pat) = .star :: globTokens pat := rfl

theorem globTokens_any : globTokens (63 :: pat) = .any :: globTokens pat := rfl

theorem globTokens_escape :
    globTokens (92 :: pat) = .byte (pat.headD 92) :: globTokens pat.tail := by
  rw [globTokens, globTokens, List.length_cons, tokensFrom,
    tokensFrom_congr pat.length pat.tail.length _ (by simp) le_rfl]
  rfl

theorem globTokens_open (h : readClass (classBody pat) = none) :
    globTokens (91 :: pat) = .byte 91 :: globTokens pat := by
  rw [globTokens, globTokens, List.length_cons, tokensFrom, h]
  rfl

theorem globTokens_class (h : readClass (classBody pat) = some (members, rest)) :
    globTokens (91 :: pat) = .cls (decide (pat.head? = some 33)) members :: globTokens rest := by
  rw [globTokens, globTokens, List.length_cons, tokensFrom, h,
    tokensFrom_congr rest.length pat.length rest le_rfl (length_afterClass h).le]
  rfl

theorem globTokens_byte (hstar : c ≠ 42) (hany : c ≠ 63) (hesc : c ≠ 92) (hopen : c ≠ 91) :
    globTokens (c :: pat) = .byte c :: globTokens pat := by
  rw [globTokens, List.length_cons, tokensFrom, if_neg hstar, if_neg hany, if_neg hesc, if_neg hopen,
    globTokens]

end Tokens

section Pieces

variable {b c : UInt8} {tok : GlobToken} {toks : List GlobToken} {txt : Bytes}

theorem splits_any : Splits GlobToken.Accepts (.any :: toks) (b :: txt)
    ↔ Splits GlobToken.Accepts toks txt := by
  rw [splits_one (p := fun _ => True) (by simp [GlobToken.Accepts]), true_and]

theorem splits_byte : Splits GlobToken.Accepts (.byte c :: toks) (b :: txt)
    ↔ b = c ∧ Splits GlobToken.Accepts toks txt :=
  splits_one (p := fun b => b = c) (by simp [GlobToken.Accepts])

theorem splits_cls {negate : Bool} {members : List ClassMember} :
    Splits GlobToken.Accepts (.cls negate members :: toks) (b :: txt)
      ↔ members.any (·.has b) ≠ negate ∧ Splits GlobToken.Accepts toks txt :=
  splits_one (p := fun b => members.any (·.has b) ≠ negate) fun _ => Iff.rfl

theorem not_splits_empty (htok : tok ≠ .star) : ¬Splits GlobToken.Accepts (tok :: toks) [] := by
  refine not_splits_nil ?_
  rcases tok with _ | _ | _ | _ <;> simp_all [GlobToken.Accepts]

/-- A run of stars means what one star means. -/
theorem splits_stars (txt : Bytes) : ∀ pat : Bytes,
    Splits GlobToken.Accepts (.star :: globTokens pat) txt
      ↔ Splits GlobToken.Accepts (.star :: globTokens (pat.dropWhile (· = 42))) txt
  | [] => Iff.rfl
  | c :: pat => by
    by_cases hc : c = 42
    · subst hc
      rw [globTokens_star, splits_all_all fun _ => trivial, splits_stars txt pat]
      rfl
    · rw [List.dropWhile_cons_of_neg (by simpa using hc)]

end Pieces

theorem globTokens_cons {c : UInt8} (hstar : c ≠ 42) (pat : Bytes) :
    ∃ tok toks, globTokens (c :: pat) = tok :: toks ∧ tok ≠ .star := by
  rw [globTokens, List.length_cons, tokensFrom, if_neg hstar]
  split_ifs
  · exact ⟨_, _, rfl, by simp⟩
  · exact ⟨_, _, rfl, by simp⟩
  · rcases readClass (classBody pat) with _ | ⟨members, rest⟩
    · exact ⟨_, _, rfl, by simp⟩
    · exact ⟨_, _, rfl, by simp⟩
  · exact ⟨_, _, rfl, by simp⟩

theorem globGo_empty {c : UInt8} (hstar : c ≠ 42) (fuel : ℕ) (pat : Bytes) :
    globGo (fuel + 1) (c :: pat) [] = false := by
  rw [globGo.eq_def]
  simp only [hstar, if_false]

/-- The matcher accepts the texts that split into pieces of the tokens. -/
theorem globGo_iff : ∀ (fuel : ℕ) (pat txt : Bytes), pat.length ≤ fuel →
    (globGo fuel pat txt = true ↔ Splits GlobToken.Accepts (globTokens pat) txt)
  | 0, pat, txt, h => by
    rw [List.length_eq_zero_iff.1 (Nat.le_zero.1 h)]
    exact List.isEmpty_iff.trans splits_nil.symm
  | fuel + 1, [], txt, _ => List.isEmpty_iff.trans splits_nil.symm
  | fuel + 1, c :: pat, txt, h => by
    rw [List.length_cons, Nat.add_le_add_iff_right] at h
    have go : ∀ rest txt : Bytes, rest.length ≤ pat.length →
        (globGo fuel rest txt = true ↔ Splits GlobToken.Accepts (globTokens rest) txt) :=
      fun rest txt hr => globGo_iff fuel rest txt (hr.trans h)
    by_cases hstar : c = 42
    · subst hstar
      have hlen : (pat.dropWhile (· = 42)).length ≤ pat.length :=
        (List.dropWhile_suffix _).length_le
      rw [globTokens_star, splits_stars, globGo.eq_def]
      simp only [if_true]
      split_ifs with hlast
      · rw [hlast]
        exact iff_of_true rfl
          ((splits_all fun _ => trivial).2 ⟨[], List.nil_suffix, splits_nil.2 rfl⟩)
      · rw [splits_all fun _ => trivial, List.any_eq_true]
        simp only [List.mem_tails, go _ _ hlen]
    rcases txt with _ | ⟨b, txt⟩
    · obtain ⟨tok, toks, htoks, hne⟩ := globTokens_cons hstar pat
      rw [globGo_empty hstar, htoks]
      exact iff_of_false (by simp) (not_splits_empty hne)
    rw [globGo.eq_def]
    by_cases hany : c = 63
    · subst hany
      rw [globTokens_any, splits_any, ← go pat txt le_rfl]
      simp only [hstar, if_false, if_true]
    by_cases hesc : c = 92
    · subst hesc
      rw [globTokens_escape, splits_byte, ← go pat.tail txt (by simp)]
      simp only [hstar, hany, if_false, if_true]
      rcases pat with _ | ⟨b', pat⟩ <;> simp
    by_cases hopen : c = 91
    · subst hopen
      have hbody : (if pat.head? = some 33 then pat.tail else pat) = classBody pat := rfl
      simp only [hstar, hany, hesc, if_false, if_true, decide_eq_true_eq, scanClass_eq, hbody]
      obtain hread | ⟨⟨members, rest⟩, hread⟩ :=
        Option.eq_none_or_eq_some (readClass (classBody pat))
      · rw [globTokens_open hread, splits_byte, ← go pat txt le_rfl, hread]
        simp only [Option.map_none, Bool.and_eq_true, decide_eq_true_eq]
      · rw [globTokens_class hread, splits_cls, ← go rest txt (length_afterClass hread).le, hread]
        simp only [Option.map_some]
        split_ifs with hm
        · exact iff_of_false (by simp) fun h => h.1 hm
        · exact (and_iff_right hm).symm
    rw [globTokens_byte hstar hany hesc hopen, splits_byte, ← go pat txt le_rfl]
    simp only [hstar, hany, hesc, hopen, if_false, Bool.and_eq_true, decide_eq_true_eq]

/-! ## Cursors -/

theorem ok_bind {α β : Type} (a : α) (f : α → Except GlobFault β) : (Except.ok a >>= f) = f a :=
  rfl

section Cursors

variable {xs pat txt rest : Bytes} {i k p t : ℕ} {b c : UInt8}

theorem drop_eq_cons (h : xs.drop i = b :: rest) :
    i < xs.length ∧ byteAt xs i = .ok b ∧ xs.drop (i + 1) = rest := by
  have hlt : i < xs.length := by
    by_contra hle
    rw [List.drop_eq_nil_of_le (not_lt.1 hle)] at h
    cases h
  rw [List.drop_eq_getElem_cons hlt] at h
  obtain ⟨hb, hrest⟩ := List.cons.inj h
  refine ⟨hlt, ?_, hrest⟩
  rw [byteAt, List.getElem?_eq_getElem hlt, hb]

theorem drop_eq_nil (h : xs.drop i = []) : xs.length ≤ i := List.drop_eq_nil_iff.1 h

theorem rangeAt_range {x : UInt8} {z : UInt8} (h : pat.drop k = x :: 45 :: z :: rest) (hz : z ≠ 93) :
    rangeAt pat k = .ok true ∧ byteAt pat (k + 2) = .ok z := by
  obtain ⟨-, -, h₁⟩ := drop_eq_cons h
  obtain ⟨-, hy, h₂⟩ := drop_eq_cons h₁
  obtain ⟨hlt, hbyte, -⟩ := drop_eq_cons h₂
  refine ⟨?_, hbyte⟩
  rw [rangeAt, if_pos hlt, hy, ok_bind, if_pos rfl, hbyte, ok_bind]
  simpa using hz

theorem rangeAt_single {x : UInt8} (h : pat.drop k = x :: rest) (hs : SingleMember x rest) :
    rangeAt pat k = .ok false := by
  obtain ⟨-, -, h₁⟩ := drop_eq_cons h
  rw [rangeAt]
  split_ifs with hlt
  · rcases rest with _ | ⟨y, _ | ⟨z, rest⟩⟩
    · have := drop_eq_nil h₁
      omega
    · have := drop_eq_nil (drop_eq_cons h₁).2.2
      omega
    · obtain ⟨-, hy, h₂⟩ := drop_eq_cons h₁
      rw [hy, ok_bind]
      split_ifs with h45
      · rw [(drop_eq_cons h₂).2.1, ok_bind, hs.2 z rest (by rw [h45])]
        rfl
      · rfl
  · rfl

/-- How the loop over a class ends: beyond the pattern if the class is not closed, else on its
bracket, having found the byte if it is a member. -/
def ClassEnd (pat body : Bytes) (c : UInt8) (matched : Bool) (r : ℕ × Bool) : Prop :=
  readClass body = none ∧ pat.length ≤ r.1 ∨
    ∃ members, readClass body = some (members, pat.drop (r.1 + 1)) ∧ r.1 < pat.length
      ∧ r.2 = (matched || members.any (·.has c))

theorem ClassEnd.member {body body' : Bytes} {matched : Bool} {m : ClassMember} {r : ℕ × Bool}
    (h : readClass body' = (readClass body).map fun r => (m :: r.1, r.2))
    (hr : ClassEnd pat body c (matched || m.has c) r) : ClassEnd pat body' c matched r := by
  rcases hr with ⟨hnone, hlen⟩ | ⟨members, hread, hlt, hfound⟩
  · exact .inl ⟨by rw [h, hnone]; rfl, hlen⟩
  · refine .inr ⟨m :: members, by rw [h, hread]; rfl, hlt, ?_⟩
    rw [hfound, List.any_cons, Bool.or_assoc]

theorem classLoop_ends (hc : byteAt txt t = .ok c) (body : Bytes) (rounds k : ℕ) (matched : Bool)
    (hk : pat.drop k = body) (hr : body.length < rounds) :
    ∃ r, classLoop pat txt t rounds k matched = .ok r ∧ ClassEnd pat body c matched r := by
  induction body using class_induction generalizing rounds k matched with
  | nil =>
    obtain ⟨rounds, rfl⟩ : ∃ n, rounds = n + 1 := ⟨rounds - 1, by omega⟩
    have hlen := drop_eq_nil hk
    rw [classLoop, if_neg (by omega)]
    exact ⟨(k, matched), rfl, .inl ⟨rfl, hlen⟩⟩
  | close rest =>
    obtain ⟨rounds, rfl⟩ : ∃ n, rounds = n + 1 := ⟨rounds - 1, by omega⟩
    obtain ⟨hlt, hbyte, hdrop⟩ := drop_eq_cons hk
    rw [classLoop, if_pos hlt, hbyte, ok_bind, if_pos rfl]
    refine ⟨(k, matched), rfl, .inr ⟨[], ?_, hlt, by simp⟩⟩
    rw [readClass_close, hdrop]
  | escape y rest ih =>
    obtain ⟨rounds, rfl⟩ : ∃ n, rounds = n + 1 := ⟨rounds - 1, by omega⟩
    obtain ⟨hlt, hbyte, hdrop⟩ := drop_eq_cons hk
    obtain ⟨hlt', hbyte', hdrop'⟩ := drop_eq_cons hdrop
    obtain ⟨r, hr', hend⟩ := ih rounds (k + 2) (matched || decide (c = y)) hdrop'
      (by simp only [List.length_cons] at hr; omega)
    rw [classLoop, if_pos hlt, hbyte, ok_bind, if_neg (by decide), if_pos ⟨rfl, hlt'⟩, hc, ok_bind,
      hbyte', ok_bind]
    exact ⟨r, hr', hend.member (m := .byte y) readClass_escape⟩
  | range x z rest hx hesc hz ih =>
    obtain ⟨rounds, rfl⟩ : ∃ n, rounds = n + 1 := ⟨rounds - 1, by omega⟩
    obtain ⟨hlt, hbyte, hdrop⟩ := drop_eq_cons hk
    obtain ⟨hrange, hbyte'⟩ := rangeAt_range hk hz
    obtain ⟨r, hr', hend⟩ := ih rounds (k + 3) (matched || inRange x z c)
      (drop_eq_cons (drop_eq_cons hdrop).2.2).2.2 (by simp only [List.length_cons] at hr; omega)
    rw [classLoop, if_pos hlt, hbyte, ok_bind, if_neg hx, if_neg fun h => hesc h.1, hrange, ok_bind,
      if_pos rfl, hbyte', ok_bind, hc, ok_bind]
    exact ⟨r, hr', hend.member (m := .range x z) (readClass_range hx hesc hz)⟩
  | single x rest hx hs ih =>
    obtain ⟨rounds, rfl⟩ : ∃ n, rounds = n + 1 := ⟨rounds - 1, by omega⟩
    obtain ⟨hlt, hbyte, hdrop⟩ := drop_eq_cons hk
    have hesc : ¬(x = 92 ∧ k + 1 < pat.length) := by
      rintro ⟨h92, hlt'⟩
      rw [hs.1 h92] at hdrop
      exact absurd (drop_eq_nil hdrop) (not_le.2 hlt')
    obtain ⟨r, hr', hend⟩ := ih rounds (k + 1) (matched || decide (c = x)) hdrop
      (by simp only [List.length_cons] at hr; omega)
    rw [classLoop, if_pos hlt, hbyte, ok_bind, if_neg hx, if_neg hesc, rangeAt_single hk hs, ok_bind,
      if_neg (by decide), hc, ok_bind]
    exact ⟨r, hr', hend.member (m := .byte x) (readClass_single hx hs)⟩

theorem skipStars_eq : ∀ (rest : Bytes) (rounds p : ℕ), p < pat.length →
    pat.drop (p + 1) = rest → rest.length < rounds →
      ∃ q, skipStars pat rounds p = .ok q ∧ p ≤ q ∧ q < pat.length
        ∧ pat.drop (q + 1) = rest.dropWhile (· = 42)
  | [], rounds + 1, p, hp, h, _ => by
    have hlen := drop_eq_nil h
    refine ⟨p, ?_, le_rfl, hp, h⟩
    rw [skipStars, if_neg (by omega)]
  | c :: rest, rounds + 1, p, hp, h, hr => by
    obtain ⟨hlt, hbyte, hdrop⟩ := drop_eq_cons h
    rw [skipStars, if_pos hlt, hbyte, ok_bind]
    by_cases hc : c = 42
    · obtain ⟨q, hq, hpq, hlast⟩ := skipStars_eq rest rounds (p + 1) hlt hdrop (by simpa using hr)
      refine ⟨q, ?_, by omega, ?_⟩
      · rw [if_pos hc, hq]
      · rw [List.dropWhile_cons_of_pos (by simpa using hc)]
        exact hlast
    · refine ⟨p, if_neg hc, le_rfl, hp, ?_⟩
      rw [List.dropWhile_cons_of_neg (by simpa using hc), h]

/-- The run ends, with the answer to `P`. -/
def Answers (r : Except GlobFault Bool) (P : Prop) : Prop :=
  ∃ answer, r = .ok answer ∧ (answer = true ↔ P)

theorem answers_false {P : Prop} (h : ¬P) : Answers (.ok false) P := ⟨false, rfl, by simp [h]⟩

theorem Answers.congr {r : Except GlobFault Bool} {P Q : Prop} (h : Answers r P) (hpq : P ↔ Q) :
    Answers r Q := by
  obtain ⟨answer, hr, hp⟩ := h
  exact ⟨answer, hr, hp.trans hpq⟩

/-- A byte that must be `x` is compared before the rest is matched. -/
theorem Answers.ifEq {r : Except GlobFault Bool} {P : Prop} {x : UInt8} (h : Answers r P) :
    Answers (if b ≠ x then .ok false else r) (b = x ∧ P) := by
  split_ifs with hb
  · exact answers_false fun h => hb h.1
  · rw [not_not] at hb
    exact h.congr (by simp [hb])

theorem firstMatch_answers {attempt : ℕ → Except GlobFault Bool} {P : ℕ → Prop} :
    ∀ {is : List ℕ}, (∀ i ∈ is, Answers (attempt i) (P i)) →
      Answers (firstMatch attempt is) (∃ i ∈ is, P i)
  | [], _ => answers_false (by simp)
  | i :: is, h => by
    obtain ⟨hi, his⟩ := List.forall_mem_cons.1 h
    obtain ⟨answer, heq, hanswer⟩ := hi
    rw [firstMatch, heq, ok_bind]
    split_ifs with ha
    · exact ⟨true, rfl, iff_of_true rfl ⟨i, List.mem_cons_self, hanswer.1 ha⟩⟩
    · refine (firstMatch_answers his).congr ?_
      have hnot : ¬P i := fun hp => ha (hanswer.2 hp)
      simp [hnot]

theorem suffix_drop_iff {P : Bytes → Prop} (ht : t ≤ txt.length) :
    (∃ i ∈ List.range' t (txt.length + 1 - t), P (txt.drop i))
      ↔ ∃ rest, rest <:+ txt.drop t ∧ P rest := by
  constructor
  · rintro ⟨i, hi, h⟩
    rw [List.mem_range'_1] at hi
    refine ⟨txt.drop i, ?_, h⟩
    obtain ⟨d, rfl⟩ := Nat.exists_eq_add_of_le hi.1
    rw [← List.drop_drop]
    exact List.drop_suffix _ _
  · rintro ⟨rest, hrest, h⟩
    have hlen := hrest.length_le
    rw [List.length_drop] at hlen
    refine ⟨txt.length - rest.length, ?_, ?_⟩
    · rw [List.mem_range'_1]
      omega
    · rw [← List.suffix_iff_eq_drop.1 (hrest.trans (List.drop_suffix _ _))]
      exact h

theorem escape_byte (hpat : pat.drop p = c :: rest) (hc : c = 92) :
    byteAt pat (if p + 1 < pat.length then p + 1 else p) = .ok (rest.headD 92) := by
  obtain ⟨-, hbyte, hdrop⟩ := drop_eq_cons hpat
  rcases rest with _ | ⟨x, rest⟩
  · have := drop_eq_nil hdrop
    rw [if_neg (by omega), hbyte, hc]
    rfl
  · obtain ⟨hlt, hbyte', -⟩ := drop_eq_cons hdrop
    rw [if_pos hlt, hbyte']
    rfl

section Rounds

/-- The matcher with `rounds` rounds ends with the right answer where they suffice. -/
def RoundsAnswer (rounds : ℕ) : Prop :=
  ∀ (pat txt : Bytes) (p t : ℕ), pat.length - p < rounds → t ≤ txt.length →
    Answers (globLoop rounds pat txt p t)
      (Splits GlobToken.Accepts (globTokens (pat.drop p)) (txt.drop t))

variable {rounds : ℕ} (go : RoundsAnswer rounds)
include go

theorem star_answers (hpat : pat.drop p = 42 :: rest) (hp : pat.length - p < rounds + 1)
    (ht : t ≤ txt.length) :
    Answers (skipStars pat pat.length p >>= fun p =>
        if p + 1 = pat.length then .ok true
        else
          firstMatch (fun i => sliceAt pat (p + 1) >>= fun pat => sliceAt txt i >>= fun txt =>
            globLoop rounds pat txt 0 0) (List.range' t (txt.length + 1 - t)))
      (Splits GlobToken.Accepts (.star :: globTokens rest) (txt.drop t)) := by
  obtain ⟨hlt, -, hdrop⟩ := drop_eq_cons hpat
  have hrest : rest.length < pat.length := by
    rw [← hdrop, List.length_drop]
    omega
  obtain ⟨q, hq, hpq, hqlt, hqdrop⟩ := skipStars_eq rest pat.length p hlt hdrop hrest
  rw [hq, ok_bind]
  split_ifs with hlast
  · rw [hlast, List.drop_length] at hqdrop
    refine ⟨true, rfl, iff_of_true rfl ?_⟩
    rw [splits_stars, ← hqdrop, splits_all fun _ => trivial]
    exact ⟨[], List.nil_suffix, splits_nil.2 rfl⟩
  · have hattempt : ∀ i ∈ List.range' t (txt.length + 1 - t),
        Answers (sliceAt pat (q + 1) >>= fun pat => sliceAt txt i >>= fun txt =>
            globLoop rounds pat txt 0 0)
          (Splits GlobToken.Accepts (globTokens (pat.drop (q + 1))) (txt.drop i)) := by
      intro i hi
      rw [List.mem_range'_1] at hi
      rw [sliceAt, if_pos (show q + 1 ≤ pat.length from hqlt), ok_bind, sliceAt,
        if_pos (by omega), ok_bind]
      have h := go (pat.drop (q + 1)) (txt.drop i) 0 0 (by rw [List.length_drop]; omega)
        (Nat.zero_le _)
      rwa [List.drop_zero, List.drop_zero] at h
    refine (firstMatch_answers hattempt).congr ?_
    rw [suffix_drop_iff ht, splits_stars, splits_all fun _ => trivial, hqdrop]

theorem class_answers {txt' : Bytes} (hpat : pat.drop p = 91 :: rest)
    (hp : pat.length - p < rounds + 1) (htxt : txt.drop t = b :: txt') :
    Answers ((if p + 1 < pat.length then byteAt pat (p + 1) >>= fun x => .ok (decide (x = 33))
            else .ok false) >>= fun negate =>
          classLoop pat txt t (pat.length + 1) (if negate then p + 2 else p + 1) false >>= fun r =>
          if pat.length ≤ r.1 then
            byteAt txt t >>= fun b =>
              if b ≠ 91 then .ok false else globLoop rounds pat txt (p + 1) (t + 1)
          else if r.2 = negate then .ok false
          else globLoop rounds pat txt (r.1 + 1) (t + 1))
      (Splits GlobToken.Accepts (globTokens (91 :: rest)) (b :: txt')) := by
  obtain ⟨hlt, -, hdrop⟩ := drop_eq_cons hpat
  obtain ⟨htlt, htbyte, htdrop⟩ := drop_eq_cons htxt
  have hnegate : (if p + 1 < pat.length then byteAt pat (p + 1) >>= fun x => .ok (decide (x = 33))
      else .ok false) = .ok (decide (rest.head? = some 33)) := by
    rcases rest with _ | ⟨x, rest⟩
    · have := drop_eq_nil hdrop
      rw [if_neg (by omega)]
      rfl
    · obtain ⟨hlt', hbyte', -⟩ := drop_eq_cons hdrop
      rw [if_pos hlt', hbyte', ok_bind]
      simp
  have hbody : pat.drop (if decide (rest.head? = some 33) = true then p + 2 else p + 1)
      = classBody rest := by
    unfold classBody
    simp only [decide_eq_true_eq]
    split_ifs
    · rw [← List.drop_drop, hpat]
      exact List.drop_one
    · exact hdrop
  have hrest : rest.length = pat.length - (p + 1) := by rw [← hdrop, List.length_drop]
  obtain ⟨r, hloop, hend⟩ := classLoop_ends htbyte (classBody rest) (pat.length + 1) _ false hbody
    (by have := length_classBody rest; omega)
  rw [hnegate, ok_bind, hloop, ok_bind]
  rcases hend with ⟨hnone, hlen⟩ | ⟨members, hread, hrlt, hfound⟩
  · rw [if_pos hlen, htbyte, ok_bind, globTokens_open hnone]
    refine (go pat txt (p + 1) (t + 1) (by omega) htlt).ifEq.congr ?_
    rw [hdrop, htdrop, splits_byte]
  · rw [if_neg (by omega), globTokens_class hread, hfound, Bool.false_or]
    split_ifs with hm
    · exact answers_false fun h => (splits_cls.1 h).1 hm
    · have hafter := length_afterClass hread
      rw [List.length_drop] at hafter
      refine (go pat txt (r.1 + 1) (t + 1) (by omega) htlt).congr ?_
      · rw [htdrop, splits_cls]
        exact (and_iff_right hm).symm

end Rounds

/-- From any position of its cursors the matcher ends with the right answer. -/
theorem globLoop_answers : ∀ rounds : ℕ, RoundsAnswer rounds
  | 0, _, _, _, _, hp, _ => absurd hp (Nat.not_lt_zero _)
  | rounds + 1, pat, txt, p, t, hp, ht => by
    have go := globLoop_answers rounds
    rw [globLoop]
    rcases hpat : pat.drop p with _ | ⟨c, rest⟩
    · have hlen := drop_eq_nil hpat
      rw [if_neg (by omega)]
      refine ⟨_, rfl, ?_⟩
      rw [decide_eq_true_eq]
      refine Iff.trans ?_ splits_nil.symm
      rw [List.drop_eq_nil_iff]
      omega
    obtain ⟨hlt, hbyte, hdrop⟩ := drop_eq_cons hpat
    rw [if_pos hlt, hbyte, ok_bind]
    by_cases hstar : c = 42
    · subst hstar
      rw [if_pos rfl, globTokens_star]
      exact star_answers go hpat hp ht
    rw [if_neg hstar]
    rcases htxt : txt.drop t with _ | ⟨b, txt'⟩
    · have hend := drop_eq_nil htxt
      obtain ⟨tok, toks, htoks, hne⟩ := globTokens_cons hstar rest
      have hfalse : Answers (.ok false) (Splits GlobToken.Accepts (globTokens (c :: rest)) []) := by
        rw [htoks]
        exact answers_false (not_splits_empty hne)
      by_cases hesc : c = 92
      · rw [if_neg (by rw [hesc]; decide), if_pos hesc, escape_byte hpat hesc, ok_bind, if_pos hend]
        exact hfalse
      · rw [if_neg hesc, if_pos hend, if_pos hend, if_pos hend]
        split_ifs <;> exact hfalse
    obtain ⟨htlt, htbyte, htdrop⟩ := drop_eq_cons htxt
    have hmore : ¬txt.length ≤ t := by omega
    by_cases hany : c = 63
    · subst hany
      rw [if_pos rfl, if_neg hmore, globTokens_any]
      refine (go pat txt (p + 1) (t + 1) (by omega) htlt).congr ?_
      rw [hdrop, htdrop, splits_any]
    rw [if_neg hany]
    by_cases hesc : c = 92
    · subst hesc
      rw [if_pos rfl, escape_byte hpat rfl, ok_bind, if_neg hmore, htbyte, ok_bind,
        globTokens_escape]
      refine (go pat txt (p + 2) (t + 1) (by omega) htlt).ifEq.congr ?_
      rw [htdrop, splits_byte, ← List.drop_drop, hpat]
      change _ ∧ Splits _ (globTokens (rest.drop 1)) _ ↔ _
      rw [List.drop_one]
    rw [if_neg hesc]
    by_cases hopen : c = 91
    · subst hopen
      rw [if_pos rfl, if_neg hmore]
      exact class_answers go hpat hp htxt
    rw [if_neg hopen, if_neg hmore, htbyte, ok_bind, globTokens_byte hstar hany hesc hopen]
    refine (go pat txt (p + 1) (t + 1) (by omega) htlt).ifEq.congr ?_
    rw [hdrop, htdrop, splits_byte]

end Cursors

/-- The matcher accepts a text exactly if it splits into pieces of the pattern's tokens. With its
cursors, and at least as many rounds as the pattern has bytes and one more, it comes to the same
answer: it ends, and no index is out of range. -/
theorem glob_exact (pattern text : Bytes) :
    (globMatch pattern text = true
        ↔ ∃ pieces : List Bytes, pieces.flatten = text
          ∧ List.Forall₂ GlobToken.Accepts (globTokens pattern) pieces)
      ∧ ∀ rounds, pattern.length < rounds →
        globLoop rounds pattern text 0 0 = .ok (globMatch pattern text) := by
  have hmatch : globMatch pattern text = true
      ↔ Splits GlobToken.Accepts (globTokens pattern) text := globGo_iff _ pattern text le_rfl
  refine ⟨hmatch, fun rounds hr => ?_⟩
  obtain ⟨answer, hloop, hanswer⟩ :=
    globLoop_answers rounds pattern text 0 0 (by omega) (Nat.zero_le _)
  rw [List.drop_zero, List.drop_zero] at hanswer
  rw [hloop, Bool.eq_iff_iff.2 (hanswer.trans hmatch.symm)]

end FerrumKv
