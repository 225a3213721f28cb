import Mathlib.Algebra.GroupWithZero.Nat
import Mathlib.Data.List.Basic
import Mathlib.Logic.Function.Iterate

/-!
# Conditions in text

A condition of a `WHERE` clause as the sequence of its lexemes. Its placeholders are bound from left to
right (`bindParams`), it is read with the precedence of SQL, `NOT` before `AND` before `OR`
(`readCondition`), and evaluated in three-valued logic (`Cond.eval`). `Reads` is what the text of a
condition in parentheses is read as wherever an operand may stand, with one rule for each way to build
it.
-/

namespace KeysCore.Lib

/-! ## Three-valued logic -/

/-- `none` is `NULL`. -/
abbrev Truth := Option Bool

namespace Truth

def not (a : Truth) : Truth := a.map (!·)

def and : Truth → Truth → Truth
  | some false, _ => some false
  | _, some false => some false
  | some true, some true => some true
  | _, _ => none

def or : Truth → Truth → Truth
  | some true, _ => some true
  | _, some true => some true
  | some false, some false => some false
  | _, _ => none

@[simp] theorem not_some (a : Bool) : not (some a) = some (!a) := rfl

@[simp] theorem and_some (a b : Bool) : and (some a) (some b) = some (a && b) := by
  cases a <;> cases b <;> rfl

@[simp] theorem or_some (a b : Bool) : or (some a) (some b) = some (a || b) := by
  cases a <;> cases b <;> rfl

@[simp] theorem false_and (a : Truth) : and (some false) a = some false := rfl

end Truth

inductive Cond (α : Type) where
  | atom (a : α)
  | not (c : Cond α)
  | and (c d : Cond α)
  | or (c d : Cond α)
deriving DecidableEq

namespace Cond

variable {α : Type} {v : α → Truth}

def eval (v : α → Truth) : Cond α → Truth
  | atom a => v a
  | not c => (c.eval v).not
  | and c d => (c.eval v).and (d.eval v)
  | or c d => (c.eval v).or (d.eval v)

/-- A chain of `AND` whose links are not `NULL`. -/
theorem eval_foldl_and {ι : Type} {f : ι → Cond α} {b : ι → Bool} {l : List ι}
    (h : ∀ i ∈ l, (f i).eval v = some (b i)) {c : Cond α} {b₀ : Bool} (hc : c.eval v = some b₀) :
    ((l.map f).foldl and c).eval v = some (b₀ && l.all b) := by
  induction l generalizing c b₀ with
  | nil => simp [hc]
  | cons i l ih =>
    have hi : (and c (f i)).eval v = some (b₀ && b i) := by
      rw [eval, hc, h i (by simp), Truth.and_some]
    rw [List.map_cons, List.foldl_cons, ih (fun j hj => h j (List.mem_cons_of_mem _ hj)) hi,
      List.all_cons, Bool.and_assoc]

theorem eval_foldl_or {ι : Type} {f : ι → Cond α} {b : ι → Bool} {l : List ι}
    (h : ∀ i ∈ l, (f i).eval v = some (b i)) {c : Cond α} {b₀ : Bool} (hc : c.eval v = some b₀) :
    ((l.map f).foldl or c).eval v = some (b₀ || l.any b) := by
  induction l generalizing c b₀ with
  | nil => simp [hc]
  | cons i l ih =>
    have hi : (or c (f i)).eval v = some (b₀ || b i) := by
      rw [eval, hc, h i (by simp), Truth.or_some]
    rw [List.map_cons, List.foldl_cons, ih (fun j hj => h j (List.mem_cons_of_mem _ hj)) hi,
      List.any_cons, Bool.or_assoc]

end Cond

/-! ## Reading -/

/-- The lexemes of a condition; a comparison with its operands is one. -/
inductive Lexeme (α : Type) where
  | lparen
  | rparen
  | and
  | or
  | not
  | atom (a : α)
deriving DecidableEq

/-- What has been read since a parenthesis opened: the left side of the `OR` and of the `AND` under
way, the `NOT`s before the next operand, and the operand last read. -/
structure Frame (α : Type) where
  ors : Option (Cond α) := none
  ands : Option (Cond α) := none
  nots : Nat := 0
  operand : Option (Cond α) := none

namespace Frame

variable {α : Type} (f : Frame α)

/-- An operand takes its place. -/
def place (c : Cond α) : Frame α := { f with operand := some (Cond.not^[f.nots] c), nots := 0 }

/-- The `AND`s up to the operand `c`. -/
def conjunction (c : Cond α) : Cond α := (f.ands.map (Cond.and · c)).getD c

/-- Everything up to the operand `c`. -/
def disjunction (c : Cond α) : Cond α :=
  (f.ors.map (Cond.or · (f.conjunction c))).getD (f.conjunction c)

/-- The condition the frame holds when it closes. -/
def close : Option (Cond α) := f.operand.map f.disjunction

end Frame

/-- Reads on from the frame at hand, inside those of the open parentheses. -/
def readFrom {α : Type} : List (Lexeme α) → Frame α → List (Frame α) → Option (Cond α)
  | [], f, [] => f.close
  | [], _, _ :: _ => none
  | .atom a :: ts, f, fs => if f.operand.isSome then none else readFrom ts (f.place (.atom a)) fs
  | .lparen :: ts, f, fs => if f.operand.isSome then none else readFrom ts {} (f :: fs)
  | .not :: ts, f, fs =>
    if f.operand.isSome then none else readFrom ts { f with nots := f.nots + 1 } fs
  | .rparen :: _, _, [] => none
  | .rparen :: ts, f, g :: fs =>
    match f.close with
    | none => none
    | some c => readFrom ts (g.place c) fs
  | .and :: ts, f, fs =>
    match f.operand with
    | none => none
    | some c => readFrom ts { f with ands := some (f.conjunction c), operand := none } fs
  | .or :: ts, f, fs =>
    match f.operand with
    | none => none
    | some c => readFrom ts { ors := some (f.disjunction c) } fs

def readCondition {α : Type} (ts : List (Lexeme α)) : Option (Cond α) := readFrom ts {} []

/-- `ts` is read as `c` wherever an operand may stand. -/
def Closed {α : Type} (ts : List (Lexeme α)) (c : Cond α) : Prop :=
  ∀ (f : Frame α) (fs : List (Frame α)) (rest : List (Lexeme α)), f.operand = none →
    readFrom (ts ++ rest) f fs = readFrom rest (f.place c) fs

/-- Conditions with a connective between them. -/
def separated {α : Type} (op : Lexeme α) (tss : List (List (Lexeme α))) : List (Lexeme α) :=
  [op].intercalate tss

theorem separated_singleton {α : Type} (op : Lexeme α) (ts : List (Lexeme α)) :
    separated op [ts] = ts := by
  simp [separated, List.intercalate]

theorem separated_cons_cons {α : Type} (op : Lexeme α) (ts us : List (Lexeme α))
    (tss : List (List (Lexeme α))) :
    separated op (ts :: us :: tss) = ts ++ op :: separated op (us :: tss) := by
  simp [separated, List.intercalate]

namespace Closed

variable {α : Type} {ts : List (Lexeme α)} {c : Cond α}

theorem atom (a : α) : Closed [.atom a] (.atom a) := by
  intro f fs rest hf
  simp [readFrom, hf]

/-- **The text of a closed condition is read as it.** -/
theorem read (h : Closed ts c) : readCondition ts = some c := by
  have hread := h {} [] [] rfl
  rw [List.append_nil] at hread
  rw [readCondition, hread]
  rfl

/-- Two closed conditions with `AND` between them. -/
theorem read_and {us : List (Lexeme α)} {d : Cond α} (h : Closed ts c) (h' : Closed us d) :
    readCondition (ts ++ .and :: us) = some (.and c d) := by
  have hand : readFrom (.and :: us) (({} : Frame α).place c) [] =
      readFrom (us ++ []) { ands := some c } [] := by
    simp [readFrom, Frame.place, Frame.conjunction]
  rw [readCondition, h {} [] _ rfl, hand, h' _ [] [] rfl]
  rfl

/-- What is read up to the closing parenthesis is the operand. -/
theorem parens {f : Frame α} (hf : f.close = some c)
    (h : ∀ fs rest, readFrom (ts ++ rest) {} fs = readFrom rest f fs) :
    Closed (.lparen :: ts ++ [.rparen]) c := by
  intro g fs rest hg
  have hlparen : readFrom (.lparen :: ts ++ [.rparen] ++ rest) g fs =
      readFrom (ts ++ (.rparen :: rest)) {} (g :: fs) := by
    simp [readFrom, hg]
  rw [hlparen, h]
  simp [readFrom, hf]

theorem negated (h : Closed ts c) : Closed (.lparen :: .not :: ts ++ [.rparen]) (.not c) := by
  have hread : ∀ fs rest, readFrom (.not :: ts ++ rest) {} fs =
      readFrom rest { operand := some (.not c) } fs := by
    intro fs rest
    have hnot : readFrom (.not :: ts ++ rest) {} fs = readFrom (ts ++ rest) { nots := 1 } fs := by
      simp [readFrom]
    rw [hnot, h _ fs rest rfl]
    rfl
  exact parens rfl hread

/-- A chain of `AND`, read in a frame that awaits an operand. -/
theorem readFrom_ands {l : List (List (Lexeme α) × Cond α)} (hl : ∀ x ∈ l, Closed x.1 x.2)
    (h : Closed ts c) {f : Frame α} (hf : f.operand = none ∧ f.nots = 0) (hors : f.ors = none) :
    ∃ g : Frame α, g.close = some ((l.map (·.2)).foldl .and (f.conjunction c)) ∧ ∀ fs rest,
      readFrom (separated .and (ts :: l.map (·.1)) ++ rest) f fs = readFrom rest g fs := by
  induction l generalizing ts c f with
  | nil =>
    refine ⟨f.place c, ?_, fun fs rest => ?_⟩
    · simp [Frame.place, Frame.close, Frame.disjunction, Frame.conjunction, hf.2, hors]
    · rw [List.map_nil, separated_singleton, h f fs rest hf.1]
  | cons x l ih =>
    obtain ⟨us, d⟩ := x
    have hus : Closed us d := hl (us, d) (List.mem_cons_self ..)
    obtain ⟨g, hclose, hg⟩ := ih (fun y hy => hl y (List.mem_cons_of_mem _ hy)) hus
      (f := { f with ands := some (f.conjunction c), operand := none }) ⟨rfl, hf.2⟩ hors
    refine ⟨g, hclose, fun fs rest => ?_⟩
    rw [List.map_cons, separated_cons_cons, List.append_assoc, h f fs _ hf.1, ← hg fs rest]
    simp [readFrom, Frame.place, Frame.conjunction, hf.2]

/-- A chain of `OR`, read in a frame that awaits an operand. -/
theorem readFrom_ors {l : List (List (Lexeme α) × Cond α)} (hl : ∀ x ∈ l, Closed x.1 x.2)
    (h : Closed ts c) {f : Frame α} (hf : f.operand = none ∧ f.nots = 0) (hands : f.ands = none) :
    ∃ g : Frame α, g.close = some ((l.map (·.2)).foldl .or (f.disjunction c)) ∧ ∀ fs rest,
      readFrom (separated .or (ts :: l.map (·.1)) ++ rest) f fs = readFrom rest g fs := by
  induction l generalizing ts c f with
  | nil =>
    refine ⟨f.place c, ?_, fun fs rest => ?_⟩
    · simp [Frame.place, Frame.close, Frame.disjunction, Frame.conjunction, hf.2]
    · rw [List.map_nil, separated_singleton, h f fs rest hf.1]
  | cons x l ih =>
    obtain ⟨us, d⟩ := x
    have hus : Closed us d := hl (us, d) (List.mem_cons_self ..)
    obtain ⟨g, hclose, hg⟩ := ih (fun y hy => hl y (List.mem_cons_of_mem _ hy)) hus
      (f := { ors := some (f.disjunction c) }) ⟨rfl, rfl⟩ rfl
    refine ⟨g, hclose, fun fs rest => ?_⟩
    rw [List.map_cons, separated_cons_cons, List.append_assoc, h f fs _ hf.1, ← hg fs rest]
    simp [readFrom, Frame.place, Frame.disjunction, Frame.conjunction, hf.2]

theorem ands {l : List (List (Lexeme α) × Cond α)} (hl : ∀ x ∈ l, Closed x.1 x.2) (h : Closed ts c) :
    Closed (.lparen :: separated .and (ts :: l.map (·.1)) ++ [.rparen])
      ((l.map (·.2)).foldl .and c) := by
  obtain ⟨g, hclose, hg⟩ := readFrom_ands hl h (f := {}) ⟨rfl, rfl⟩ rfl
  exact parens hclose hg

theorem ors {l : List (List (Lexeme α) × Cond α)} (hl : ∀ x ∈ l, Closed x.1 x.2) (h : Closed ts c) :
    Closed (.lparen :: separated .or (ts :: l.map (·.1)) ++ [.rparen])
      ((l.map (·.2)).foldl .or c) := by
  obtain ⟨g, hclose, hg⟩ := readFrom_ors hl h (f := {}) ⟨rfl, rfl⟩ rfl
  exact parens hclose hg

end Closed

/-! ## Parameters -/

section Parameters

variable {α β : Type} (arity : α → Nat)

/-- The placeholders of a comparison. -/
def Lexeme.placeholders : Lexeme α → Nat
  | .atom a => arity a
  | _ => 0

/-- The placeholders of a text. -/
def placeholders (ts : List (Lexeme α)) : Nat := (ts.map (Lexeme.placeholders arity)).sum

/-- Gives every comparison its parameters, from left to right; too few or too many are refused. -/
def bindParams : List (Lexeme α) → List β → Option (List (Lexeme (α × List β)))
  | [], [] => some []
  | [], _ :: _ => none
  | .atom a :: ts, ps =>
    if arity a ≤ ps.length then
      (bindParams ts (ps.drop (arity a))).map (.atom (a, ps.take (arity a)) :: ·)
    else none
  | .lparen :: ts, ps => (bindParams ts ps).map (.lparen :: ·)
  | .rparen :: ts, ps => (bindParams ts ps).map (.rparen :: ·)
  | .and :: ts, ps => (bindParams ts ps).map (.and :: ·)
  | .or :: ts, ps => (bindParams ts ps).map (.or :: ·)
  | .not :: ts, ps => (bindParams ts ps).map (.not :: ·)

variable {arity}

theorem bindParams_append {ts us : List (Lexeme α)} {ps qs : List β}
    {ts' us' : List (Lexeme (α × List β))} (hts : bindParams arity ts ps = some ts')
    (hus : bindParams arity us qs = some us') :
    bindParams arity (ts ++ us) (ps ++ qs) = some (ts' ++ us') := by
  induction ts generalizing ps ts' with
  | nil =>
    cases ps with
    | nil =>
      cases Option.some.inj hts
      exact hus
    | cons p ps => exact absurd hts (by simp [bindParams])
  | cons t ts ih =>
    cases t with
    | atom a =>
      rw [bindParams] at hts
      split at hts
      · rename_i hle
        obtain ⟨us, hbind, rfl⟩ := Option.map_eq_some_iff.1 hts
        have hle' : arity a ≤ (ps ++ qs).length := by
          rw [List.length_append]
          omega
        rw [List.cons_append, bindParams, if_pos hle', List.drop_append_of_le_length hle,
          List.take_append_of_le_length hle, ih hbind]
        rfl
      · exact absurd hts (by simp)
    | lparen | rparen | and | or | not =>
      obtain ⟨us, hbind, rfl⟩ := Option.map_eq_some_iff.1 hts
      rw [List.cons_append, bindParams, ih hbind]
      rfl

/-- A text that takes its parameters has a placeholder for each. -/
theorem placeholders_eq_of_bindParams {ts : List (Lexeme α)} {ps : List β}
    {ts' : List (Lexeme (α × List β))} (h : bindParams arity ts ps = some ts') :
    placeholders arity ts = ps.length := by
  induction ts generalizing ps ts' with
  | nil =>
    cases ps with
    | nil => rfl
    | cons p ps => exact absurd h (by simp [bindParams])
  | cons t ts ih =>
    cases t with
    | atom a =>
      rw [bindParams] at h
      split at h
      · obtain ⟨us, hbind, -⟩ := Option.map_eq_some_iff.1 h
        have hrest := ih hbind
        simp only [placeholders, List.map_cons, List.sum_cons, Lexeme.placeholders,
          List.length_drop] at hrest ⊢
        omega
      · exact absurd h (by simp)
    | lparen | rparen | and | or | not =>
      obtain ⟨us, hbind, -⟩ := Option.map_eq_some_iff.1 h
      simpa [placeholders, Lexeme.placeholders] using ih hbind

/-- With the parameters `ps` the text `ts` is read as `c` wherever an operand may stand. -/
def Reads (arity : α → Nat) (ts : List (Lexeme α)) (ps : List β) (c : Cond (α × List β)) : Prop :=
  ∃ ts', bindParams arity ts ps = some ts' ∧ Closed ts' c

namespace Reads

variable {ts : List (Lexeme α)} {ps : List β} {c : Cond (α × List β)}

theorem atom {a : α} (h : arity a = ps.length) : Reads arity [.atom a] ps (.atom (a, ps)) := by
  refine ⟨[.atom (a, ps)], ?_, Closed.atom _⟩
  simp [bindParams, h]

theorem placeholders_eq (h : Reads arity ts ps c) : placeholders arity ts = ps.length := by
  obtain ⟨ts', hbind, -⟩ := h
  exact placeholders_eq_of_bindParams hbind

/-- The text with its parameters is the condition. -/
theorem read (h : Reads arity ts ps c) : (bindParams arity ts ps).bind readCondition = some c := by
  obtain ⟨ts', hbind, hclosed⟩ := h
  rw [hbind, Option.bind_some, hclosed.read]

theorem bindParams_wrapped {t u : List (Lexeme α)} {t' u' ts' : List (Lexeme (α × List β))}
    (ht : bindParams arity t ([] : List β) = some t') (hu : bindParams arity u ([] : List β) = some u')
    (h : bindParams arity ts ps = some ts') :
    bindParams arity (t ++ ts ++ u) ps = some (t' ++ ts' ++ u') := by
  have hwrapped := bindParams_append (bindParams_append ht h) hu
  rwa [List.nil_append, List.append_nil] at hwrapped

theorem negated (h : Reads arity ts ps c) :
    Reads arity (.lparen :: .not :: ts ++ [.rparen]) ps (.not c) := by
  obtain ⟨ts', hbind, hclosed⟩ := h
  exact ⟨_, bindParams_wrapped (t := [.lparen, .not]) (u := [.rparen]) rfl rfl hbind, hclosed.negated⟩

/-- The operands of a chain take their parameters one after the other. -/
theorem bindParams_separated (op : Lexeme α) (op' : Lexeme (α × List β))
    (hop : bindParams arity [op] ([] : List β) = some [op'])
    {l : List (List (Lexeme α) × List β × Cond (α × List β))} (hl : ∀ x ∈ l, Reads arity x.1 x.2.1 x.2.2)
    {ts' : List (Lexeme (α × List β))} (hts : bindParams arity ts ps = some ts') :
    ∃ l' : List (List (Lexeme (α × List β)) × Cond (α × List β)),
      bindParams arity (separated op (ts :: l.map (·.1))) (ps ++ (l.map (·.2.1)).flatten) =
        some (separated op' (ts' :: l'.map (·.1))) ∧
      (∀ x ∈ l', Closed x.1 x.2) ∧ l'.map (·.2) = l.map (·.2.2) := by
  induction l generalizing ts ps ts' with
  | nil =>
    refine ⟨[], ?_, by simp, rfl⟩
    simpa [separated_singleton] using hts
  | cons x l ih =>
    obtain ⟨us, qs, d⟩ := x
    obtain ⟨us', hus, hclosed⟩ := hl (us, qs, d) (List.mem_cons_self ..)
    obtain ⟨l', hbind, hl', hconds⟩ := ih (fun y hy => hl y (List.mem_cons_of_mem _ hy)) hus
    refine ⟨(us', d) :: l', ?_, ?_, ?_⟩
    · have hchain := bindParams_append (bindParams_append hts hop) hbind
      simpa [separated_cons_cons] using hchain
    · intro y hy
      obtain rfl | hy := List.mem_cons.1 hy
      · exact hclosed
      · exact hl' y hy
    · rw [List.map_cons, List.map_cons, hconds]

variable {l : List (List (Lexeme α) × List β × Cond (α × List β))}

theorem ands (h : Reads arity ts ps c) (hl : ∀ x ∈ l, Reads arity x.1 x.2.1 x.2.2) :
    Reads arity (.lparen :: separated .and (ts :: l.map (·.1)) ++ [.rparen])
      (ps ++ (l.map (·.2.1)).flatten) ((l.map (·.2.2)).foldl .and c) := by
  obtain ⟨ts', hts, hclosed⟩ := h
  obtain ⟨l', hbind, hl', hconds⟩ := bindParams_separated .and .and rfl hl hts
  rw [← hconds]
  exact ⟨_, bindParams_wrapped (t := [.lparen]) (u := [.rparen]) rfl rfl hbind, hclosed.ands hl'⟩

theorem ors (h : Reads arity ts ps c) (hl : ∀ x ∈ l, Reads arity x.1 x.2.1 x.2.2) :
    Reads arity (.lparen :: separated .or (ts :: l.map (·.1)) ++ [.rparen])
      (ps ++ (l.map (·.2.1)).flatten) ((l.map (·.2.2)).foldl .or c) := by
  obtain ⟨ts', hts, hclosed⟩ := h
  obtain ⟨l', hbind, hl', hconds⟩ := bindParams_separated .or .or rfl hl hts
  rw [← hconds]
  exact ⟨_, bindParams_wrapped (t := [.lparen]) (u := [.rparen]) rfl rfl hbind, hclosed.ors hl'⟩

end Reads

end Parameters

end KeysCore.Lib
