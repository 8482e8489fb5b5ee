import RegLang.Semantics.Denotation
/-!
# Folded expressions

One concatenation can be nested in many ways, and one word can be cut into literals in many ways.
The folded form of an expression nests every concatenation to the right and joins neighbouring
letters and literals into one literal, everywhere in the tree.

* `mergeRuns_append_congr`: the runs of a list of factors follow from the runs of its parts.
* `mergeRuns_followedBy`: `followedBy` joins what folding would join.
* `denote_folded`: folding does not change what an expression denotes.
-/

namespace RegLang.Expr

/-! ## Definitions -/

/-- Puts a factor in front of others; a literal joins a literal there. -/
def joinFactor (e : Expr) (es : List Expr) : List Expr :=
  match e, es with
  | literal v, literal w :: es => literal (v ++ w) :: es
  | e, es => e :: es

/-- Joins every run of neighbouring literals. -/
def mergeRuns (es : List Expr) : List Expr := es.foldr joinFactor []

/-- The concatenation of some expressions, nested to the right. -/
def chain : List Expr → Expr
  | [] => literal []
  | [e] => e
  | e :: es => concat e (chain es)

/-- The factors of an expression, which are no concatenations themselves: a letter as a literal,
and anything else with its operands folded. -/
def factors : Expr → List Expr
  | concat a b => a.factors ++ b.factors
  | letter c => [literal [c]]
  | union a b => [union (chain (mergeRuns a.factors)) (chain (mergeRuns b.factors))]
  | inter a b => [inter (chain (mergeRuns a.factors)) (chain (mergeRuns b.factors))]
  | optional a => [optional (chain (mergeRuns a.factors))]
  | star a => [star (chain (mergeRuns a.factors))]
  | atLeast a n => [atLeast (chain (mergeRuns a.factors)) n]
  | repeated a lo hi => [repeated (chain (mergeRuns a.factors)) lo hi]
  | compl a => [compl (chain (mergeRuns a.factors))]
  | e => [e]

/-- The folded form of an expression. -/
def folded (e : Expr) : Expr := chain (mergeRuns e.factors)

/-! ## Runs of literals -/

variable {es fs es' fs' : List Expr} {a b e : Expr} {v w : Word}

theorem mergeRuns_cons : mergeRuns (e :: es) = joinFactor e (mergeRuns es) := rfl

theorem joinFactor_literal_append (v w : Word) (es : List Expr) :
    joinFactor (literal (v ++ w)) es = joinFactor (literal v) (joinFactor (literal w) es) := by
  cases es with
  | nil => rfl
  | cons e es =>
    cases e with
    | literal u => simp [joinFactor]
    | _ => rfl

theorem foldr_joinFactor_joinFactor (e : Expr) (es fs : List Expr) :
    (joinFactor e es).foldr joinFactor fs = joinFactor e (es.foldr joinFactor fs) := by
  unfold joinFactor
  split
  · exact joinFactor_literal_append _ _ _
  · rfl

theorem mergeRuns_append (es fs : List Expr) :
    mergeRuns (es ++ fs) = (mergeRuns es).foldr joinFactor (mergeRuns fs) := by
  induction es with
  | nil => rfl
  | cons e es ih => rw [List.cons_append, mergeRuns_cons, ih, mergeRuns_cons,
      foldr_joinFactor_joinFactor]

theorem mergeRuns_append_congr (h : mergeRuns es = mergeRuns es')
    (h' : mergeRuns fs = mergeRuns fs') :
    mergeRuns (es ++ fs) = mergeRuns (es' ++ fs') := by
  rw [mergeRuns_append, mergeRuns_append, h, h']

/-- A literal can be cut anywhere. -/
theorem mergeRuns_literal_append (v w : Word) :
    mergeRuns [literal (v ++ w)] = mergeRuns ([literal v] ++ [literal w]) := rfl

/-- A word is the run of its letters. -/
theorem mergeRuns_letters (h : w ≠ []) : mergeRuns (w.map fun c => literal [c]) = [literal w] := by
  induction w with
  | nil => exact (h rfl).elim
  | cons c w ih =>
    cases w with
    | nil => rfl
    | cons d w =>
      rw [List.map_cons, mergeRuns_cons, ih (List.cons_ne_nil d w)]
      rfl

/-! ## Concatenation -/

theorem factors_of_literal? (h : e.literal? = some w) : e.factors = [literal w] := by
  cases e <;> simp only [literal?, Option.some.injEq, reduceCtorEq] at h <;> subst h <;> rfl

theorem mergeRuns_followedBy (a b : Expr) :
    mergeRuns (a.followedBy b).factors = mergeRuns (a.factors ++ b.factors) := by
  unfold followedBy
  split
  · next v w hv hw =>
    rw [factors_of_literal? hv, factors_of_literal? hw, ← mergeRuns_literal_append]
    rfl
  · next v hv _ =>
    split
    · next b₁ b₂ _ =>
      split
      · next w hw =>
        rw [factors, factors, factors_of_literal? hv, factors_of_literal? hw, ← List.append_assoc]
        exact mergeRuns_append_congr (mergeRuns_literal_append v w) rfl
      · rfl
    · rfl
  · next w _ hw =>
    split
    · next a₁ a₂ _ =>
      split
      · next v hv =>
        rw [factors, factors, factors_of_literal? hv, factors_of_literal? hw, List.append_assoc]
        exact mergeRuns_append_congr rfl (mergeRuns_literal_append v w)
      · rfl
    · rfl
  · rfl

/-! ## Languages -/

variable {env : String → Language Char}

theorem denote_joinFactor :
    ((joinFactor e es).map (denote env)).prod = e.denote env * (es.map (denote env)).prod := by
  unfold joinFactor
  split
  · next v w es =>
    simp only [List.map_cons, List.prod_cons]
    show ({v ++ w} : Language Char) * _ = _
    rw [singleton_append, mul_assoc]
    rfl
  · rfl

theorem denote_mergeRuns :
    ((mergeRuns es).map (denote env)).prod = (es.map (denote env)).prod := by
  induction es with
  | nil => rfl
  | cons e es ih => rw [mergeRuns_cons, denote_joinFactor, ih, List.map_cons, List.prod_cons]

theorem denote_chain : (chain es).denote env = (es.map (denote env)).prod := by
  induction es with
  | nil => rfl
  | cons e es ih =>
    cases es with
    | nil => simp [chain]
    | cons e' es =>
      rw [List.map_cons, List.prod_cons, ← ih]
      rfl

theorem denote_folded_of (h : (e.factors.map (denote env)).prod = e.denote env) :
    (chain (mergeRuns e.factors)).denote env = e.denote env := by
  rw [denote_chain, denote_mergeRuns, h]

theorem denote_factors (e : Expr) : (e.factors.map (denote env)).prod = e.denote env := by
  induction e with
  | concat a b iha ihb =>
    rw [factors, List.map_append, List.prod_append, iha, ihb]
    rfl
  | union a b iha ihb =>
    rw [factors, List.map_singleton, List.prod_singleton]
    simp only [denote, denote_folded_of iha, denote_folded_of ihb]
  | inter a b iha ihb =>
    rw [factors, List.map_singleton, List.prod_singleton]
    simp only [denote, denote_folded_of iha, denote_folded_of ihb]
    rfl
  | compl a ih =>
    rw [factors, List.map_singleton, List.prod_singleton]
    simp only [denote, denote_folded_of ih]
    rfl
  | optional a ih | star a ih | atLeast a n ih | repeated a lo hi ih =>
    rw [factors, List.map_singleton, List.prod_singleton]
    simp only [denote, denote_folded_of ih]
  | _ => exact List.prod_singleton

theorem denote_folded (e : Expr) : e.folded.denote env = e.denote env :=
  denote_folded_of (denote_factors e)

end RegLang.Expr
