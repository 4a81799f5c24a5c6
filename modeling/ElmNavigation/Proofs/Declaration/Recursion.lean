import ElmNavigation.Proofs.Declaration.Completeness

/-! Rules that call themselves. A type has types inside it, and a list goes on after each of its items;
the rules for both are given a bound on how often. The bounds are never felt. Before such a rule calls
itself it has taken a token, so what it does depends only on what the call does with fewer tokens. A
recursion of this kind has exactly one solution, whatever the tokens, and the rules with bounds are it. -/

namespace ElmNavigation.Rule

open Sentence

/-! ### Rules that take tokens -/

/-- A rule gives back no more tokens than it was given. -/
def Shrinks {α : Type} (rule : Rule α) : Prop :=
  ∀ ⦃tokens : List Token⦄ ⦃value : α⦄ ⦃rest : List Token⦄, rule tokens = .ok (value, rest) →
    rest.length ≤ tokens.length

/-- A rule takes at least one token. -/
def Consumes {α : Type} (rule : Rule α) : Prop :=
  ∀ ⦃tokens : List Token⦄ ⦃value : α⦄ ⦃rest : List Token⦄, rule tokens = .ok (value, rest) →
    rest.length < tokens.length

theorem Consumes.shrinks {α : Type} {rule : Rule α} (h : Consumes rule) : Shrinks rule :=
  fun _ _ _ hrule => Nat.le_of_lt (h hrule)

theorem Sound.shrinks {α : Type} {rule : Rule α} {form : List Token → α → Prop} (h : Sound rule form) :
    Shrinks rule := by
  intro tokens value rest hrule
  obtain ⟨used, rfl, _⟩ := h hrule
  rw [List.length_append]
  exact Nat.le_add_left _ _

/-- A rule for sentences that are not empty takes a token. -/
theorem Sound.consumes {α : Type} {rule : Rule α} {form : List Token → α → Prop} (h : Sound rule form)
    (hform : ∀ used value, form used value → ∃ first more, used = first :: more) : Consumes rule := by
  intro tokens value rest hrule
  obtain ⟨used, rfl, hused⟩ := h hrule
  obtain ⟨first, more, rfl⟩ := hform used value hused
  rw [List.length_append, List.length_cons]
  omega

theorem token_shrinks (kind : Kind) : Shrinks (token kind) := by
  intro tokens first rest h
  obtain ⟨rfl, _⟩ := token_eq_ok h
  exact Nat.le_succ _

theorem optional_shrinks (kind : Kind) : Shrinks (optional kind) := by
  intro tokens seen rest h
  cases seen with
  | true =>
      obtain ⟨first, rfl, _⟩ := optional_eq_true h
      exact Nat.le_succ _
  | false =>
      obtain rfl := optional_eq_false h
      exact Nat.le_refl _

theorem name_shrinks : Shrinks name := by
  intro tokens text rest h
  obtain ⟨first, rfl, _⟩ := name_eq_ok h
  exact Nat.le_succ _

theorem remaining_shrinks : Shrinks remaining := by
  intro tokens count rest h
  cases h
  exact Nat.le_refl _

theorem get_shrinks : Shrinks (get : Rule (List Token)) := by
  intro tokens _ rest h
  cases h
  exact Nat.le_refl _

theorem recordBase_shrinks : Shrinks recordBase := by
  intro tokens base rest h
  rw [recordBase.eq_def] at h
  split at h
  · split at h
    · cases h
      simp only [List.length_cons]
      omega
    · cases h
      exact Nat.le_refl _
  · cases h
    exact Nat.le_refl _

theorem path_consumes : Consumes path := by
  refine path_sound.consumes ?_
  rintro used _ ⟨names, hpath, _⟩
  obtain ⟨first, more, rfl, _⟩ := exists_cons_of_path hpath
  exact ⟨first, more, rfl⟩

theorem exposedItem_consumes : Consumes exposedItem := by
  refine exposedItem_sound.consumes ?_
  intro used item hitem
  cases hitem <;> exact ⟨_, _, rfl⟩

/-- Every part after the first takes a dot and a name. -/
theorem length_qualified (stop : Nat) (tokens : List Token) :
    2 * (qualified stop tokens).1.length + (qualified stop tokens).2.length = tokens.length := by
  fun_induction qualified stop tokens with
  | case1 stop dot part rest hjoined parts rest' hrest ih =>
      rw [hrest] at ih
      dsimp only at ih
      simp only [List.length_cons]
      omega
  | case2 stop dot part rest hjoined => exact Nat.zero_add _
  | case3 stop tokens hshort => exact Nat.zero_add _

theorem closeBlock_consumes (depth : Nat) : Consumes (closeBlock depth) := by
  refine (closeBlock_sound depth).consumes fun used _ hcloses => ?_
  cases depth with
  | zero =>
      obtain ⟨inner, closer, rfl, _⟩ := hcloses
      exact List.exists_cons_of_ne_nil (List.concat_ne_nil closer inner)
  | succ depth =>
      obtain ⟨inner, closer, rest, rfl, _⟩ := hcloses
      exact List.exists_cons_of_ne_nil
        (List.append_ne_nil_of_right_ne_nil inner (List.cons_ne_nil closer rest))

section

variable {type : Rule TypeExpr} (htype : Sound type Annotation)

include htype

theorem atom_consumes : Consumes (atom type) := by
  refine (atom_sound htype).consumes fun used value hatom => ?_
  obtain ⟨first, more, rfl, _⟩ := exists_cons_of_atom hatom
  exact ⟨first, more, rfl⟩

theorem field_consumes : Consumes (field type) := by
  refine (field_sound htype).consumes fun used value hmember => ?_
  cases hmember
  exact ⟨_, _, rfl⟩

theorem constructor_consumes : Consumes (constructor type) := by
  refine (constructor_sound htype).consumes fun used value halternative => ?_
  obtain ⟨hpath, _⟩ := halternative
  obtain ⟨first, more, rfl, _⟩ := exists_cons_of_path hpath
  exact ⟨first, _, rfl⟩

theorem applied_consumes : Consumes (applied type) := by
  refine (applied_sound htype).consumes fun used value happlied => ?_
  obtain ⟨first, more, rfl, _⟩ := exists_cons_of_applied happlied
  exact ⟨first, more, rfl⟩

omit htype in
theorem type_consumes : Consumes Rule.type := by
  refine type_sound.consumes fun used value hannotation => ?_
  obtain ⟨first, more, rfl, _⟩ := exists_cons_of_annotations (.last hannotation)
  exact ⟨first, more, rfl⟩

end

/-! ### Rules that agree on few tokens -/

/-- Two rules do the same with fewer tokens than the bound. -/
def AgreeBelow {α : Type} (bound : Nat) (rule rule' : Rule α) : Prop :=
  ∀ ⦃tokens : List Token⦄, tokens.length < bound → rule tokens = rule' tokens

section

variable {α β : Type} {bound : Nat} {rule rule' : Rule α} {next next' : α → Rule β}

theorem AgreeBelow.refl (bound : Nat) (rule : Rule α) : AgreeBelow bound rule rule :=
  fun _ _ => rfl

theorem agreeBelow_one (h : rule [] = rule' []) : AgreeBelow 1 rule rule' := by
  intro tokens hlength
  obtain rfl : tokens = [] := List.length_eq_zero_iff.mp (Nat.lt_one_iff.mp hlength)
  exact h

theorem AgreeBelow.bind (hrule : AgreeBelow bound rule rule')
    (hnext : ∀ tokens value rest, tokens.length < bound → rule tokens = .ok (value, rest) →
      next value rest = next' value rest) : AgreeBelow bound (rule >>= next) (rule' >>= next') := by
  intro tokens hlength
  change (rule tokens >>= fun pair => next pair.1 pair.2) = (rule' tokens >>= fun pair => next' pair.1 pair.2)
  rw [← hrule hlength]
  cases hok : rule tokens with
  | error mismatch => rfl
  | ok pair => exact hnext tokens pair.1 pair.2 hlength hok

theorem AgreeBelow.bind_right (hrule : AgreeBelow bound rule rule') (next : α → Rule β) :
    AgreeBelow bound (rule >>= next) (rule' >>= next) :=
  hrule.bind fun _ _ _ _ _ => rfl

theorem AgreeBelow.bind_of_shrinks (hrule : AgreeBelow bound rule rule') (hshrinks : Shrinks rule)
    (hnext : ∀ value, AgreeBelow bound (next value) (next' value)) :
    AgreeBelow bound (rule >>= next) (rule' >>= next') :=
  hrule.bind fun _ value _ hlength hok => hnext value (Nat.lt_of_le_of_lt (hshrinks hok) hlength)

/-- After a rule that takes a token it is enough to agree on one token less. -/
theorem Consumes.agreeBelow_bind (hrule : Consumes rule)
    (hnext : ∀ value, AgreeBelow bound (next value) (next' value)) :
    AgreeBelow (bound + 1) (rule >>= next) (rule >>= next') :=
  (AgreeBelow.refl _ _).bind fun _ value _ hlength hok =>
    hnext value (Nat.lt_of_lt_of_le (hrule hok) (Nat.le_of_lt_succ hlength))

theorem Shrinks.agreeBelow_bind (hrule : Shrinks rule)
    (hnext : ∀ value, AgreeBelow bound (next value) (next' value)) :
    AgreeBelow bound (rule >>= next) (rule >>= next') :=
  (AgreeBelow.refl _ _).bind_of_shrinks hrule hnext

theorem AgreeBelow.ite {yes yes' no no' : Rule α} (condition : Bool) (hyes : AgreeBelow bound yes yes')
    (hno : AgreeBelow bound no no') :
    AgreeBelow bound (if condition then yes else no) (if condition then yes' else no') := by
  by_cases hcondition : condition = true
  · rw [if_pos hcondition, if_pos hcondition]
    exact hyes
  · rw [if_neg hcondition, if_neg hcondition]
    exact hno

theorem AgreeBelow.map (f : α → β) (hrule : AgreeBelow bound rule rule') :
    AgreeBelow bound (f <$> rule) (f <$> rule') := by
  intro tokens hlength
  change (rule tokens >>= fun pair => pure (f pair.1, pair.2)) =
    (rule' tokens >>= fun pair => pure (f pair.1, pair.2))
  rw [hrule hlength]

end

/-! ### Recursions with one solution -/

section

variable {α : Type} {body : Rule α → Rule α} {rule : Rule α}

/-- Wherever `body` calls the rule, a token has been taken. -/
def Guards (body : Rule α → Rule α) (rule : Rule α) : Prop :=
  ∀ ⦃rule' : Rule α⦄ ⦃bound : Nat⦄, AgreeBelow bound rule rule' →
    AgreeBelow (bound + 1) (body rule) (body rule')

/-- The recursion takes a token before it calls itself, and the rule is its only solution. -/
structure Descends (body : Rule α → Rule α) (rule : Rule α) : Prop where
  guards : Guards body rule
  eq_iff (rule' : Rule α) : rule' = body rule' ↔ rule' = rule

/-- By induction on the number of tokens, two solutions do the same. -/
theorem Guards.eq_of_eq_body (h : Guards body rule) (hrule : rule = body rule) {rule' : Rule α}
    (hrule' : rule' = body rule') : rule' = rule := by
  have hagree : ∀ bound, AgreeBelow bound rule rule' := by
    intro bound
    induction bound with
    | zero => exact fun tokens hlength => absurd hlength (Nat.not_lt_zero _)
    | succ bound ih =>
        rw [hrule, hrule']
        exact h ih
  funext tokens
  exact (hagree (tokens.length + 1) (Nat.lt_succ_self _)).symm

-- the rule that stops at once, with bound 0, is right with fewer tokens than the slack
variable {slack : Nat} {bounded : Nat → Rule α} (hbounded : ∀ n, bounded (n + 1) = body (bounded n))
  (hguards : ∀ n, Guards body (bounded n)) (hslack : AgreeBelow slack (bounded 0) (bounded 1))

include hbounded hguards hslack

theorem agreeBelow_succ (n : Nat) : AgreeBelow (n + slack) (bounded n) (bounded (n + 1)) := by
  induction n with
  | zero => rwa [Nat.zero_add]
  | succ n ih =>
      rw [hbounded, hbounded (n + 1), Nat.add_right_comm]
      exact hguards n ih

theorem agreeBelow_of_le {n m : Nat} (h : n ≤ m) : AgreeBelow (n + slack) (bounded n) (bounded m) := by
  induction h with
  | refl => exact AgreeBelow.refl _ _
  | @step m hle ih =>
      intro tokens hlength
      rw [ih hlength]
      refine agreeBelow_succ hbounded hguards hslack m (Nat.lt_of_lt_of_le hlength ?_)
      exact Nat.add_le_add_right hle slack

/-- A rule whose bound grows with the tokens solves the recursion without a bound. -/
theorem eq_body_of_bounded (hrule : ∀ tokens, rule tokens = bounded (tokens.length + 1 - slack) tokens) :
    rule = body rule := by
  have hagree : ∀ n, AgreeBelow (n + slack) (bounded n) rule := by
    intro n tokens hlength
    rw [hrule]
    refine (agreeBelow_of_le hbounded hguards hslack ?_ ?_).symm <;> omega
  funext tokens
  calc rule tokens
      = bounded (tokens.length + 1) tokens := (hagree (tokens.length + 1) (by omega)).symm
    _ = body (bounded tokens.length) tokens := by rw [hbounded]
    _ = body rule tokens := hguards tokens.length (hagree tokens.length) (by omega)

theorem descends_of_bounded (hrule : ∀ tokens, rule tokens = bounded (tokens.length + 1 - slack) tokens)
    (hguard : Guards body rule) : Descends body rule := by
  have hsolves := eq_body_of_bounded hbounded hguards hslack hrule
  refine ⟨hguard, fun rule' => ⟨hguard.eq_of_eq_body hsolves, ?_⟩⟩
  intro heq
  rw [heq]
  exact hsolves

end

/-! ### Lists -/

section

variable {α : Type} {item : Rule α}

/-- Further items, each after a separator, given the rule for those that follow. -/
def furtherBody (separator : Kind) (item : Rule α) (loop : Rule (List α)) : Rule (List α) := do
  if ← optional separator then
    let first ← item
    let rest ← loop
    return first :: rest
  else
    return []

theorem furtherBody_guards (separator : Kind) (hitem : Shrinks item) (loop : Rule (List α)) :
    Guards (furtherBody separator item) loop := by
  intro loop' bound h
  refine (AgreeBelow.refl _ _).bind fun tokens seen rest hlength hok => ?_
  cases seen with
  | true =>
      obtain ⟨mark, rfl, _⟩ := optional_eq_true hok
      exact hitem.agreeBelow_bind (fun first => h.bind_right _) (Nat.lt_of_succ_lt_succ hlength)
  | false => rfl

/-- Further items are read as if there were no bound on their number. -/
theorem furtherBody_descends (separator : Kind) (hitem : Shrinks item) :
    Descends (furtherBody separator item) (remaining >>= further separator item) := by
  have hguards := furtherBody_guards separator hitem
  have hempty : AgreeBelow 1 (further separator item 0) (further separator item 1) := agreeBelow_one rfl
  exact descends_of_bounded (fun _ => rfl) (fun _ => hguards _) hempty (fun _ => rfl) (hguards _)

end

/-! ### Types -/

/-- Arguments, given the rule for those that follow. -/
def argumentsBody (type : Rule TypeExpr) (loop : Rule (List TypeExpr)) : Rule (List TypeExpr) := do
  if startsAtom (← get) then
    let first ← atom type
    let rest ← loop
    return first :: rest
  else
    return []

theorem argumentsBody_guards {type : Rule TypeExpr} (htype : Sound type Annotation)
    (loop : Rule (List TypeExpr)) : Guards (argumentsBody type) loop := by
  intro loop' bound h
  refine get_shrinks.agreeBelow_bind fun tokens => .ite _ ?_ (.refl _ _)
  exact (atom_consumes htype).agreeBelow_bind fun first => h.bind_right _

/-- Arguments are read as if there were no bound on their number. -/
theorem argumentsBody_descends {type : Rule TypeExpr} (htype : Sound type Annotation) :
    Descends (argumentsBody type) (remaining >>= arguments type) := by
  have hguards := argumentsBody_guards htype
  have hempty : AgreeBelow 1 (arguments type 0) (arguments type 1) := agreeBelow_one rfl
  exact descends_of_bounded (fun _ => rfl) (fun _ => hguards _) hempty (fun _ => rfl) (hguards _)

theorem further_agree {α : Type} (separator : Kind) {item item' : Rule α} {bound : Nat} (hitem : Shrinks item)
    (h : AgreeBelow bound item item') (count : Nat) :
    AgreeBelow bound (further separator item count) (further separator item' count) := by
  induction count with
  | zero => exact AgreeBelow.refl _ _
  | succ count ih =>
      refine (optional_shrinks separator).agreeBelow_bind fun seen => .ite seen ?_ (.refl _ _)
      exact h.bind_of_shrinks hitem fun first => ih.bind_right _

theorem separated_agree {α : Type} (separator : Kind) {item item' : Rule α} {bound : Nat}
    (hitem : Shrinks item) (h : AgreeBelow bound item item') :
    AgreeBelow bound (separated separator item) (separated separator item') := by
  refine h.bind_of_shrinks hitem fun first => remaining_shrinks.agreeBelow_bind fun count => ?_
  exact (further_agree separator hitem h count).bind_right _

section

variable {type type' : Rule TypeExpr} {bound : Nat} (htype : Sound type Annotation)
  (h : AgreeBelow bound type type')

include htype h

omit htype in
theorem field_agree : AgreeBelow bound (field type) (field type') := by
  refine name_shrinks.agreeBelow_bind fun name => (token_shrinks _).agreeBelow_bind fun colon => ?_
  exact h.bind_right _

theorem recordFields_agree : AgreeBelow bound (recordFields type) (recordFields type') := by
  refine recordBase_shrinks.agreeBelow_bind fun base => ?_
  exact (separated_agree .comma (field_consumes htype).shrinks (field_agree h)).bind_right _

theorem record_agree : AgreeBelow bound (record type) (record type') := by
  refine (optional_shrinks _).agreeBelow_bind fun closed => ?_
  exact .ite closed (.refl _ _) (recordFields_agree htype h)

theorem groupItems_agree : AgreeBelow bound (groupItems type) (groupItems type') :=
  (separated_agree .comma htype.shrinks h).bind_right _

theorem group_agree : AgreeBelow bound (group type) (group type') := by
  refine (optional_shrinks _).agreeBelow_bind fun closed => ?_
  exact .ite closed (.refl _ _) (groupItems_agree htype h)

/-- The types inside an atom come after its opening bracket. -/
theorem atom_agree : AgreeBelow (bound + 1) (atom type) (atom type') := by
  intro tokens hlength
  cases tokens with
  | nil => rfl
  | cons first rest =>
      have hrest : rest.length < bound := Nat.lt_of_succ_lt_succ hlength
      rw [atom, atom]
      split
      · rfl
      · exact record_agree htype h hrest
      · exact group_agree htype h hrest
      · rfl

theorem arguments_agree (count : Nat) :
    AgreeBelow (bound + 1) (arguments type count) (arguments type' count) := by
  induction count with
  | zero => exact AgreeBelow.refl _ _
  | succ count ih =>
      refine get_shrinks.agreeBelow_bind fun tokens => .ite _ ?_ (.refl _ _)
      exact (atom_agree htype h).bind_of_shrinks (atom_consumes htype).shrinks fun first => ih.bind_right _

theorem constructor_agree : AgreeBelow (bound + 1) (constructor type) (constructor type') := by
  refine path_consumes.shrinks.agreeBelow_bind fun name => remaining_shrinks.agreeBelow_bind fun count => ?_
  exact (arguments_agree htype h count).bind_right _

theorem applied_agree : AgreeBelow (bound + 1) (applied type) (applied type') := by
  intro tokens hlength
  unfold applied
  split
  · split
    · exact (constructor_agree htype h).map _ hlength
    · exact atom_agree htype h hlength
  · rfl

theorem typeBody_agree : AgreeBelow (bound + 1) (typeBody type) (typeBody type') :=
  (separated_agree .arrow (applied_consumes htype).shrinks (applied_agree htype h)).bind_right _

end

/-- Types are read as if there were no bound on how deep they nest. -/
theorem typeBody_descends : Descends typeBody type := by
  have hguards : ∀ {rule : Rule TypeExpr}, Sound rule Annotation → Guards typeBody rule :=
    fun hsound _ _ h => typeBody_agree hsound h
  have hnone : AgreeBelow 0 (typeOfDepth 0) (typeOfDepth 1) :=
    fun tokens hlength => absurd hlength (Nat.not_lt_zero _)
  have htype : ∀ tokens, type tokens = typeOfDepth (tokens.length + 1 - 0) tokens := fun _ => rfl
  exact descends_of_bounded (fun _ => rfl) (fun depth => hguards (typeOfDepth_sound depth)) hnone htype
    (hguards type_sound)

/-! ### Progress -/

/-- No rule goes on without taking tokens. Whatever a list repeats takes at least one each time, and so do
types, arguments and the items of lists before the rules for them are called again. -/
structure Progress : Prop where
  type : Consumes type
  applied : Consumes (applied Rule.type)
  atom : Consumes (atom Rule.type)
  field : Consumes (field Rule.type)
  constructor : Consumes (constructor Rule.type)
  item : Consumes exposedItem
  path : Consumes path
  /-- Every part of a path after the first takes a dot and a name. -/
  parts (stop : Nat) (tokens : List Token) :
    2 * (qualified stop tokens).1.length + (qualified stop tokens).2.length = tokens.length
  block (depth : Nat) : Consumes (closeBlock depth)
  types : Descends typeBody Rule.type
  arguments : Descends (argumentsBody Rule.type) (remaining >>= arguments Rule.type)
  lists {α : Type} (separator : Kind) {item : Rule α} (hitem : Consumes item) :
    Descends (furtherBody separator item) (remaining >>= further separator item)

theorem progress : Progress where
  type := type_consumes
  applied := applied_consumes type_sound
  atom := atom_consumes type_sound
  field := field_consumes type_sound
  constructor := constructor_consumes type_sound
  item := exposedItem_consumes
  path := path_consumes
  parts := length_qualified
  block := closeBlock_consumes
  types := typeBody_descends
  arguments := argumentsBody_descends type_sound
  lists separator _ hitem := furtherBody_descends separator hitem.shrinks

end ElmNavigation.Rule
