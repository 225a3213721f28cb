import Mathlib.Data.List.Infix
import Mathlib.Data.List.TakeWhile

/-!
# LIKE patterns

SQLite's `LIKE … ESCAPE`: `%` stands for any text and `_` for one character, the letters `a` to `z` are
compared without their case, and a character after the escape character stands for itself. Pattern and
text are C strings, which end at their first NUL. A text with its wildcards escaped is read back as
itself (`tokens_escape_append`), so `%` in front of it matches exactly the texts that end in it, up to
case (`like_any_escape`), and `%` on both sides those it occurs in (`like_any_escape_any`). A NUL in the
text cuts off the second `%` (`like_any_escape_nul`).
-/

namespace KeysCore.Lib

namespace Like

inductive Token where
  | any
  | one
  | lit (c : Char)
deriving DecidableEq

def readChar (c : Char) : Token := if c = '%' then .any else if c = '_' then .one else .lit c

/-- The pattern with its escapes resolved; one that ends in the escape character matches nothing. -/
def tokens (esc : Char) : List Char → Option (List Token)
  | [] => some []
  | [c] => if c = esc then none else some [readChar c]
  | c :: d :: p =>
    if c = esc then (tokens esc p).map (.lit d :: ·) else (tokens esc (d :: p)).map (readChar c :: ·)

/-- `patternCompare`. -/
def matchesTokens : List Token → List Char → Bool
  | [], s => s.isEmpty
  | .any :: p, s => s.tails.any (matchesTokens p)
  | .one :: _, [] => false
  | .one :: p, _ :: s => matchesTokens p s
  | .lit _ :: _, [] => false
  | .lit d :: p, c :: s => d.toLower = c.toLower && matchesTokens p s

/-- What a C string says of the text. -/
def cString (s : List Char) : List Char := s.takeWhile (· ≠ '\x00')

def like (esc : Char) (pattern s : List Char) : Bool :=
  match tokens esc (cString pattern) with
  | none => false
  | some p => matchesTokens p (cString s)

def escapeChar (esc c : Char) : List Char := if c = esc ∨ c = '%' ∨ c = '_' then [esc, c] else [c]

def escape (esc : Char) (s : List Char) : List Char := s.flatMap (escapeChar esc)

variable {esc : Char}

/-! ## C strings -/

theorem cString_of_not_mem {s : List Char} (h : '\x00' ∉ s) : cString s = s := by
  rw [cString, List.takeWhile_eq_self_iff]
  intro c hc
  exact decide_eq_true fun he => h (he ▸ hc)

theorem cString_cons {c : Char} (hc : c ≠ '\x00') (s : List Char) :
    cString (c :: s) = c :: cString s :=
  List.takeWhile_cons_of_pos (decide_eq_true hc)

/-- What follows a NUL is not read. -/
theorem cString_append_of_mem {s : List Char} (h : '\x00' ∈ s) (t : List Char) :
    cString (s ++ t) = cString s := by
  induction s with
  | nil => cases h
  | cons c s ih =>
    by_cases hc : c = '\x00'
    · simp [cString, hc]
    · have hmem : '\x00' ∈ s := (List.mem_cons.1 h).resolve_left fun he => hc he.symm
      rw [List.cons_append, cString_cons hc, cString_cons hc, ih hmem]

/-! ## Escaped texts -/

theorem tokens_escapeChar (c : Char) (p : List Char) :
    tokens esc (escapeChar esc c ++ p) = (tokens esc p).map (.lit c :: ·) := by
  unfold escapeChar
  split
  · simp [tokens]
  · rename_i h
    rw [not_or, not_or] at h
    have hread : readChar c = .lit c := by simp [readChar, h]
    cases p with
    | nil => simp [tokens, h.1, hread]
    | cons d p => simp [tokens, h.1, hread]

/-- An escaped text is read back as itself. -/
theorem tokens_escape_append (s p : List Char) :
    tokens esc (escape esc s ++ p) = (tokens esc p).map (s.map .lit ++ ·) := by
  induction s with
  | nil => simp [escape]
  | cons c s ih =>
    have happ : escape esc (c :: s) ++ p = escapeChar esc c ++ (escape esc s ++ p) := by
      simp [escape]
    rw [happ, tokens_escapeChar, ih, Option.map_map]
    rfl

theorem tokens_any_cons (h : esc ≠ '%') (p : List Char) :
    tokens esc ('%' :: p) = (tokens esc p).map (.any :: ·) := by
  cases p with
  | nil => simp [tokens, readChar, h.symm]
  | cons d p => simp [tokens, readChar, h.symm]

theorem matchesTokens_lits (p s : List Char) :
    matchesTokens (p.map .lit) s = true ↔ s.map Char.toLower = p.map Char.toLower := by
  induction p generalizing s with
  | nil => simp [matchesTokens]
  | cons d p ih =>
    cases s with
    | nil => simp [matchesTokens]
    | cons c s =>
      rw [List.map_cons, matchesTokens, Bool.and_eq_true, ih, decide_eq_true_iff]
      simp only [List.map_cons, List.cons.injEq, eq_comm]

theorem matchesTokens_any (p : List Token) (s : List Char) :
    matchesTokens (.any :: p) s = true ↔ ∃ t, t <:+ s ∧ matchesTokens p t = true := by
  simp [matchesTokens]

theorem escape_cons_plain {c : Char} (hc : ¬ (c = esc ∨ c = '%' ∨ c = '_')) (p : List Char) :
    escape esc (c :: p) = c :: escape esc p := by
  unfold escape
  rw [List.flatMap_cons, escapeChar, if_neg hc, List.singleton_append]

section

variable (hnul : esc ≠ '\x00')

include hnul

theorem nul_mem_escape {s : List Char} : '\x00' ∈ escape esc s ↔ '\x00' ∈ s := by
  unfold escape
  rw [List.mem_flatMap]
  constructor
  · rintro ⟨c, hc, hmem⟩
    unfold escapeChar at hmem
    split at hmem
    · rcases List.mem_pair.1 hmem with he | rfl
      · exact absurd he.symm hnul
      · exact hc
    · rwa [List.mem_singleton.1 hmem]
  · intro h
    exact ⟨_, h, by simp [escapeChar, hnul.symm]⟩

/-- An escaped text is cut where the text is. -/
theorem cString_escape (s : List Char) : cString (escape esc s) = escape esc (cString s) := by
  induction s with
  | nil => rfl
  | cons c s ih =>
    have hcons (l : List Char) : escape esc (c :: l) = escapeChar esc c ++ escape esc l :=
      List.flatMap_cons
    by_cases hc : c = '\x00'
    · simp [hc, cString, escape, escapeChar, hnul.symm]
    · rw [hcons, cString_cons hc, hcons, ← ih]
      unfold escapeChar
      split
      · exact (cString_cons hnul _).trans (congrArg (esc :: ·) (cString_cons hc _))
      · exact cString_cons hc _

/-- **A wildcard before an escaped text matches the texts that end in it**, up to case. -/
theorem like_any_escape (h : esc ≠ '%') (p s : List Char) :
    like esc ('%' :: escape esc p) s = true ↔
      (cString p).map Char.toLower <:+ (cString s).map Char.toLower := by
  have hcut : cString ('%' :: escape esc p) = '%' :: escape esc (cString p) := by
    rw [cString_cons (by decide), cString_escape hnul]
  have htok : tokens esc ('%' :: escape esc (cString p)) = some (.any :: (cString p).map .lit) := by
    have hescape := @tokens_escape_append esc (cString p) []
    rw [List.append_nil] at hescape
    rw [tokens_any_cons h, hescape]
    simp [tokens]
  rw [like, hcut, htok, List.suffix_map_iff]
  simp only [matchesTokens_any, matchesTokens_lits]
  exact exists_congr fun t => and_congr_right fun _ => eq_comm

end

theorem matchesTokens_lits_any (p s : List Char) :
    matchesTokens (p.map .lit ++ [.any]) s = true ↔ p.map Char.toLower <+: s.map Char.toLower := by
  induction p generalizing s with
  | nil =>
    simp only [List.map_nil, List.nil_append, List.nil_prefix, iff_true, matchesTokens_any]
    exact ⟨[], List.nil_suffix, rfl⟩
  | cons d p ih =>
    cases s with
    | nil => simp [matchesTokens]
    | cons c s =>
      rw [List.map_cons, List.cons_append, matchesTokens, Bool.and_eq_true, ih, decide_eq_true_iff,
        List.map_cons, List.map_cons, List.cons_prefix_cons]

/-- **An escaped text between wildcards matches the texts it occurs in**, up to case. -/
theorem like_any_escape_any (hnul : esc ≠ '\x00') (h : esc ≠ '%') {p : List Char} (hp : '\x00' ∉ p)
    (s : List Char) : like esc ('%' :: (escape esc p ++ ['%'])) s = true ↔
      p.map Char.toLower <:+: (cString s).map Char.toLower := by
  have hcut : cString ('%' :: (escape esc p ++ ['%'])) = '%' :: (escape esc p ++ ['%']) := by
    refine cString_of_not_mem ?_
    simp [nul_mem_escape hnul, hp]
  have hany : tokens esc ['%'] = some [.any] := by
    rw [tokens_any_cons h]
    rfl
  have htok : tokens esc ('%' :: (escape esc p ++ ['%'])) = some (.any :: (p.map .lit ++ [.any])) := by
    rw [tokens_any_cons h, tokens_escape_append, hany]
    rfl
  rw [like, hcut, htok]
  simp only [matchesTokens_any, matchesTokens_lits_any]
  constructor
  · rintro ⟨t, ht, hpre⟩
    exact hpre.isInfix.trans (ht.map Char.toLower).isInfix
  · intro hinfix
    obtain ⟨u, hpre, hsuf⟩ := List.infix_iff_prefix_suffix.1 hinfix
    obtain ⟨t, ht, rfl⟩ := List.suffix_map_iff.1 hsuf
    exact ⟨t, ht, hpre⟩

/-- A NUL in the escaped text ends the pattern before its second wildcard. -/
theorem like_any_escape_nul (hnul : esc ≠ '\x00') {p : List Char} (hp : '\x00' ∈ p) (s : List Char) :
    like esc ('%' :: (escape esc p ++ ['%'])) s = like esc ('%' :: escape esc p) s := by
  have hmem : '\x00' ∈ '%' :: escape esc p := List.mem_cons_of_mem _ ((nul_mem_escape hnul).2 hp)
  rw [like, ← List.cons_append, cString_append_of_mem hmem, like]

end Like

end KeysCore.Lib
