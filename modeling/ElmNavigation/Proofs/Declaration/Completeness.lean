import ElmNavigation.Proofs.Declaration.Soundness

/-! The rules are complete: given the tokens of a sentence, and after them tokens that cannot go on with
it, a rule takes exactly the sentence and gives its tree. A rule takes as many tokens as it can, so each
statement names the kinds of token that would go on: a dot goes on with a path, the beginning of an atom
with the arguments of a type, an arrow with a function. The depth to which types may nest is bounded by
the number of tokens. -/

namespace ElmNavigation

/-- Whether an atom can begin with a token of this kind. -/
def Kind.beginsAtom (kind : Kind) : Bool :=
  kind == .upperName || kind == .openBrace || kind == .openParen || kind.isName

/-- Whether a token of this kind goes on with a type other than a function. -/
def Kind.extendsApplied (kind : Kind) : Bool :=
  kind == .dot || kind.beginsAtom

/-- Whether a token of this kind goes on with a type. -/
def Kind.extendsType (kind : Kind) : Bool :=
  kind == .arrow || kind.extendsApplied

namespace Rule

open Sentence

/-- Whether the tokens are at an end, or begin with one whose kind does not go on. -/
def Ends (goesOn : Kind → Bool) (rest : List Token) : Prop :=
  ∀ token ∈ rest.head?, goesOn token.kind = false

theorem Ends.nil {goesOn : Kind → Bool} : Ends goesOn [] := by
  rintro _ ⟨⟩

theorem Ends.cons {goesOn : Kind → Bool} {token : Token} {rest : List Token} (h : goesOn token.kind = false) :
    Ends goesOn (token :: rest) := by
  rintro _ ⟨⟩
  exact h

theorem Ends.mono {goesOn goesOn' : Kind → Bool} {rest : List Token} (h : Ends goesOn rest)
    (himp : ∀ kind, goesOn kind = false → goesOn' kind = false) : Ends goesOn' rest :=
  fun token htoken => himp _ (h token htoken)

theorem Ends.path {rest : List Token} (h : Ends Kind.extendsApplied rest) : Ends (· == .dot) rest :=
  h.mono fun _ hkind => (Bool.or_eq_false_iff.mp hkind).1

theorem Ends.atoms {rest : List Token} (h : Ends Kind.extendsApplied rest) : Ends Kind.beginsAtom rest :=
  h.mono fun _ hkind => (Bool.or_eq_false_iff.mp hkind).2

/-- A rule takes every sentence of fewer than `bound` tokens that is followed by an end. -/
def Complete {α : Type} (rule : Rule α) (form : List Token → α → Prop) (goesOn : Kind → Bool)
    (bound : Nat) : Prop :=
  ∀ ⦃used : List Token⦄ ⦃value : α⦄ ⦃rest : List Token⦄, form used value → used.length < bound →
    Ends goesOn rest → rule (used ++ rest) = .ok (value, rest)

theorem bind_of_ok {α β : Type} {rule : Rule α} {next : α → Rule β} {tokens rest : List Token} {value : α}
    (h : rule tokens = .ok (value, rest)) : (rule >>= next) tokens = next value rest := by
  change (rule tokens >>= fun pair => next pair.1 pair.2) = _
  rw [h]
  rfl

theorem map_of_ok {α β : Type} {rule : Rule α} {f : α → β} {tokens rest : List Token} {value : α}
    (h : rule tokens = .ok (value, rest)) : (f <$> rule) tokens = .ok (f value, rest) := by
  change (rule tokens >>= fun pair => pure (f pair.1, pair.2)) = _
  rw [h]
  rfl

/-! ### Single tokens -/

theorem token_cons {kind : Kind} {first : Token} (h : first.kind = kind) (rest : List Token) :
    token kind (first :: rest) = .ok (first, rest) := by
  rw [token, if_pos h]

theorem optional_cons {kind : Kind} {first : Token} (h : first.kind = kind) (rest : List Token) :
    optional kind (first :: rest) = .ok (true, rest) := by
  rw [optional, if_pos h]

theorem optional_of_ends {kind : Kind} {rest : List Token} (h : Ends (· == kind) rest) :
    optional kind rest = .ok (false, rest) := by
  cases rest with
  | nil => rfl
  | cons first rest =>
      have hkind := h first rfl
      rw [beq_eq_false_iff_ne] at hkind
      rw [optional, if_neg hkind]

theorem name_cons {first : Token} (h : first.kind.isName = true) (rest : List Token) :
    name (first :: rest) = .ok (first.text, rest) := by
  rw [name, if_pos h]

theorem upperName_cons {first : Token} (h : first.kind = .upperName) (rest : List Token) :
    upperName (first :: rest) = .ok (first.text, rest) := by
  rw [upperName, bind_of_ok (token_cons h rest)]
  rfl

/-! ### Lists -/

section

variable {α : Type} {separator : Kind} {item : Rule α} {form : List Token → α → Prop} {goesOn : Kind → Bool}
  {bound : Nat}

theorem further_of_ends {rest : List Token} (h : Ends (· == separator) rest) (count : Nat) :
    further separator item count rest = .ok ([], rest) := by
  cases count with
  | zero => rfl
  | succ count =>
      rw [further, bind_of_ok (optional_of_ends h)]
      rfl

theorem further_complete (hitem : Complete item form goesOn bound) (hseparator : goesOn separator = false)
    {used rest : List Token} {values : List α} (h : Separated separator form used values)
    (hlength : used.length < bound) (hends : Ends goesOn rest) (hends' : Ends (· == separator) rest)
    {mark : Token} (hmark : mark.kind = separator) {count : Nat} (hcount : (used ++ rest).length ≤ count) :
    further separator item (count + 1) (mark :: (used ++ rest)) = .ok (values, rest) := by
  induction h generalizing mark count with
  | last hform =>
      rw [further, bind_of_ok (optional_cons hmark _), if_pos rfl, bind_of_ok (hitem hform hlength hends),
        bind_of_ok (further_of_ends hends' count)]
      rfl
  | @more tokens others value values next hform hnext _ ih =>
      rw [List.length_append, List.length_append, List.length_cons] at hcount
      rw [List.length_append, List.length_cons] at hlength
      obtain ⟨count, rfl⟩ : ∃ smaller, count = smaller + 1 := ⟨count - 1, by omega⟩
      have hstop : Ends goesOn (next :: (others ++ rest)) := .cons (hnext ▸ hseparator)
      have hothers : further separator item (count + 1) (next :: (others ++ rest)) = .ok (values, rest) :=
        ih (by omega) hnext (by rw [List.length_append]; omega)
      rw [List.append_assoc, List.cons_append, further, bind_of_ok (optional_cons hmark _), if_pos rfl,
        bind_of_ok (hitem hform (by omega) hstop), bind_of_ok hothers]
      rfl

theorem separated_complete (hitem : Complete item form goesOn bound) (hseparator : goesOn separator = false) :
    Complete (separated separator item) (Separated separator form)
      (fun kind => kind == separator || goesOn kind) bound := by
  intro used values rest h hlength hends
  have hends' : Ends goesOn rest := hends.mono fun _ hkind => (Bool.or_eq_false_iff.mp hkind).2
  have hseparators : Ends (· == separator) rest := hends.mono fun _ hkind => (Bool.or_eq_false_iff.mp hkind).1
  cases h with
  | last hform =>
      rw [separated, bind_of_ok (hitem hform hlength hends'), bind_of_ok rfl,
        bind_of_ok (further_of_ends hseparators rest.length)]
      rfl
  | @more tokens others value values mark hform hmark hothers =>
      rw [List.length_append, List.length_cons] at hlength
      have hstop : Ends goesOn (mark :: (others ++ rest)) := .cons (hmark ▸ hseparator)
      have hfurther :=
        further_complete hitem hseparator hothers (by omega) hends' hseparators hmark (Nat.le_refl _)
      rw [List.append_assoc, List.cons_append, separated, bind_of_ok (hitem hform (by omega) hstop),
        bind_of_ok rfl, List.length_cons, bind_of_ok hfurther]
      rfl

end

theorem qualified_complete {part : Token} {used rest : List Token} {names : List String}
    (h : Qualified (part :: used) names) (hends : Ends (· == .dot) rest) :
    qualified part.stop (used ++ rest) = (names.tail, rest) := by
  generalize hused : part :: used = all at h
  induction h generalizing part used with
  | last hpart =>
      obtain ⟨rfl, rfl⟩ := List.cons.inj hused
      cases rest with
      | nil => rfl
      | cons first rest =>
          have hdot := hends first rfl
          rw [beq_eq_false_iff_ne] at hdot
          cases rest with
          | nil => rfl
          | cons second rest => exact if_neg fun hcond => hdot hcond.1
  | @more _ dot next others names hpart hdot hleft hright hrest ih =>
      obtain ⟨rfl, rfl⟩ := List.cons.inj hused
      have hnext : next.kind = .upperName ∧ names = next.text :: names.tail := by
        cases hrest with
        | last hkind => exact ⟨hkind, rfl⟩
        | more hkind _ _ _ _ => exact ⟨hkind, rfl⟩
      rw [List.cons_append, List.cons_append, qualified, if_pos ⟨hdot, hleft, hnext.1, hright⟩, ih rfl,
        List.tail_cons, hnext.2]
      rfl

theorem path_complete {used rest : List Token} {names : List String} (h : Qualified used names)
    (hends : Ends (· == .dot) rest) : path (used ++ rest) = .ok (".".intercalate names, rest) := by
  obtain ⟨part, others, rfl, hpart, hnames⟩ : ∃ part others, used = part :: others ∧ part.kind = .upperName ∧
      names = part.text :: names.tail := by
    cases h with
    | last hkind => exact ⟨_, _, rfl, hkind, rfl⟩
    | more hkind _ _ _ _ => exact ⟨_, _, rfl, hkind, rfl⟩
  rw [List.cons_append, path, bind_of_ok (token_cons hpart _)]
  have hqualified : (fun tokens => .ok (qualified part.stop tokens) : Rule (List String)) (others ++ rest) =
      .ok (names.tail, rest) :=
    congrArg Except.ok (qualified_complete h hends)
  rw [bind_of_ok hqualified, ← hnames]
  rfl

/-! ### Type annotations -/

theorem exists_cons_of_path {used : List Token} {names : List String} (h : Qualified used names) :
    ∃ first more, used = first :: more ∧ first.kind = .upperName := by
  cases h with
  | last hpart => exact ⟨_, _, rfl, hpart⟩
  | more hpart _ _ _ _ => exact ⟨_, _, rfl, hpart⟩

/-- An atom begins with a token that begins atoms. -/
theorem exists_cons_of_atom {used : List Token} {type : TypeExpr} (h : Atom used type) :
    ∃ first more, used = first :: more ∧ first.kind.beginsAtom = true := by
  cases h with
  | named hpath =>
      obtain ⟨first, more, rfl, hfirst⟩ := exists_cons_of_path hpath
      exact ⟨_, _, rfl, by rw [hfirst]; rfl⟩
  | var hname => exact ⟨_, _, rfl, by rw [Kind.beginsAtom, hname, Bool.or_true]⟩
  | emptyRecord hopen _ => exact ⟨_, _, rfl, by rw [hopen]; rfl⟩
  | record hopen _ _ => exact ⟨_, _, rfl, by rw [hopen]; rfl⟩
  | extensible hopen _ _ _ _ => exact ⟨_, _, rfl, by rw [hopen]; rfl⟩
  | unit hopen _ => exact ⟨_, _, rfl, by rw [hopen]; rfl⟩
  | group hopen _ _ => exact ⟨_, _, rfl, by rw [hopen]; rfl⟩
  | tuple hopen _ _ _ => exact ⟨_, _, rfl, by rw [hopen]; rfl⟩

theorem startsAtom_cons (first : Token) (rest : List Token) :
    startsAtom (first :: rest) = first.kind.beginsAtom := rfl

theorem startsAtom_of_ends {rest : List Token} (h : Ends Kind.beginsAtom rest) : startsAtom rest = false := by
  cases rest with
  | nil => rfl
  | cons first rest => exact h first rfl

/-- What begins an atom does not go on with a path. -/
theorem dot_of_beginsAtom {kind : Kind} (h : kind.beginsAtom = true) : (kind == .dot) = false := by
  cases kind <;> first | rfl | cases h

theorem exists_cons_of_applied {used : List Token} {type : TypeExpr} (h : Applied used type) :
    ∃ first more, used = first :: more ∧ first.kind.beginsAtom = true := by
  cases h with
  | atom hatom => exact exists_cons_of_atom hatom
  | named hpath _ =>
      obtain ⟨first, more, rfl, hfirst⟩ := exists_cons_of_path hpath
      exact ⟨_, _, rfl, by rw [hfirst]; rfl⟩

theorem exists_cons_of_separated {α : Type} {separator : Kind} {form : List Token → α → Prop}
    {begins : Token → Prop}
    (hform : ∀ used value, form used value → ∃ first more, used = first :: more ∧ begins first)
    {used : List Token} {values : List α} (h : Separated separator form used values) :
    ∃ first more, used = first :: more ∧ begins first := by
  cases h with
  | last hitem => exact hform _ _ hitem
  | more hitem _ _ =>
      obtain ⟨first, more, rfl, hfirst⟩ := hform _ _ hitem
      exact ⟨_, _, rfl, hfirst⟩

theorem exists_cons_of_annotations {used : List Token} {types : List TypeExpr}
    (h : Separated .comma Annotation used types) :
    ∃ first more, used = first :: more ∧ first.kind.beginsAtom = true := by
  refine exists_cons_of_separated (fun used type htype => ?_) h
  cases htype with
  | applied happlied => exact exists_cons_of_applied happlied
  | function hparts _ => exact exists_cons_of_separated (fun _ _ => exists_cons_of_applied) hparts

theorem optional_of_beginsAtom {kind : Kind} {first : Token} (hfirst : first.kind.beginsAtom = true)
    (hkind : kind.beginsAtom = false) (rest : List Token) :
    optional kind (first :: rest) = .ok (false, first :: rest) := by
  refine optional_of_ends (.cons (beq_false_of_ne fun h => ?_))
  rw [h, hkind] at hfirst
  cases hfirst

section

variable {type : Rule TypeExpr} {bound : Nat} (htype : Complete type Annotation Kind.extendsType bound)

include htype

theorem field_complete : Complete (field type) Member Kind.extendsType (bound + 2) := by
  rintro used value rest ⟨hname, hcolon, hform⟩ hlength hends
  rw [List.length_cons, List.length_cons] at hlength
  rw [List.cons_append, List.cons_append, field, bind_of_ok (name_cons hname _),
    bind_of_ok (token_cons hcolon _), bind_of_ok (htype hform (by omega) hends)]
  rfl

theorem fields_complete {used : List Token} {fields : List (Field TypeExpr)} {closer : Token}
    (h : Separated .comma Member used fields) (hlength : used.length < bound + 2)
    (hclose : closer.kind = .closeBrace) (rest : List Token) :
    separated .comma (field type) (used ++ closer :: rest) = .ok (fields, closer :: rest) := by
  refine separated_complete (field_complete htype) rfl h hlength (.cons ?_)
  rw [hclose]
  rfl

omit htype in
/-- Fields begin with a name and a colon. -/
theorem exists_cons_of_fields {used : List Token} {fields : List (Field TypeExpr)}
    (h : Separated .comma Member used fields) : ∃ name colon more, used = name :: colon :: more ∧
      name.kind.isName = true ∧ colon.kind = .colon := by
  cases h with
  | last hmember =>
      obtain ⟨hname, hcolon, _⟩ := hmember
      exact ⟨_, _, _, rfl, hname, hcolon⟩
  | more hmember _ _ =>
      obtain ⟨hname, hcolon, _⟩ := hmember
      exact ⟨_, _, _, rfl, hname, hcolon⟩

omit htype in
theorem optional_of_name {kind : Kind} {first : Token} (hname : first.kind.isName = true)
    (hkind : kind.isName = false) (rest : List Token) :
    optional kind (first :: rest) = .ok (false, first :: rest) := by
  refine optional_of_ends (.cons (beq_false_of_ne fun h => ?_))
  rw [h, hkind] at hname
  cases hname

theorem record_complete {used rest : List Token} {fields : List (Field TypeExpr)} {closer : Token}
    (h : Separated .comma Member used fields) (hlength : used.length < bound + 2)
    (hclose : closer.kind = .closeBrace) :
    record type (used ++ closer :: rest) = .ok (.record fields, rest) := by
  obtain ⟨name, colon, more, rfl, hname, hcolon⟩ := exists_cons_of_fields h
  have hfields := fields_complete htype h hlength hclose rest
  rw [List.cons_append, List.cons_append] at hfields ⊢
  have hbase : recordBase (name :: colon :: (more ++ closer :: rest)) =
      .ok (none, name :: colon :: (more ++ closer :: rest)) := by
    rw [recordBase, if_neg]
    rintro ⟨_, hpipe⟩
    rw [hcolon] at hpipe
    cases hpipe
  rw [record, bind_of_ok (optional_of_name hname rfl _)]
  show recordFields type _ = _
  rw [recordFields, bind_of_ok hbase, bind_of_ok hfields, bind_of_ok (token_cons hclose rest)]
  rfl

theorem extensible_complete {base bar closer : Token} {used rest : List Token}
    {fields : List (Field TypeExpr)} (hbase : base.kind.isName = true) (hbar : bar.kind = .pipe)
    (h : Separated .comma Member used fields) (hlength : used.length < bound + 2)
    (hclose : closer.kind = .closeBrace) :
    record type (base :: bar :: (used ++ closer :: rest)) = .ok (.extensible base.text fields, rest) := by
  have hfields := fields_complete htype h hlength hclose rest
  have hbases : recordBase (base :: bar :: (used ++ closer :: rest)) =
      .ok (some base.text, used ++ closer :: rest) := by
    rw [recordBase, if_pos ⟨hbase, hbar⟩]
  rw [record, bind_of_ok (optional_of_name hbase rfl _)]
  show recordFields type _ = _
  rw [recordFields, bind_of_ok hbases, bind_of_ok hfields, bind_of_ok (token_cons hclose rest)]
  rfl

theorem group_complete {used rest : List Token} {items : List TypeExpr} {value : TypeExpr} {closer : Token}
    (h : Separated .comma Annotation used items) (hlength : used.length < bound)
    (hclose : closer.kind = .closeParen)
    (hvalue : items = [value] ∨ 2 ≤ items.length ∧ value = .tuple items) :
    group type (used ++ closer :: rest) = .ok (value, rest) := by
  have hitems : separated .comma type (used ++ closer :: rest) = .ok (items, closer :: rest) := by
    refine separated_complete htype rfl h hlength (.cons ?_)
    rw [hclose]
    rfl
  have hopen : optional .closeParen (used ++ closer :: rest) = .ok (false, used ++ closer :: rest) := by
    obtain ⟨first, more, rfl, hfirst⟩ := exists_cons_of_annotations h
    exact optional_of_beginsAtom hfirst rfl _
  rw [group, bind_of_ok hopen]
  show groupItems type _ = _
  rw [groupItems, bind_of_ok hitems, bind_of_ok (token_cons hclose rest)]
  rcases hvalue with rfl | ⟨hmany, rfl⟩
  · rfl
  · match items, hmany with
    | _ :: _ :: _, _ => rfl

omit htype in
theorem atom_openBrace {first : Token} (h : first.kind = .openBrace) (rest : List Token) :
    atom type (first :: rest) = record type rest := by
  rw [atom.eq_def]
  dsimp only
  rw [h]

omit htype in
theorem atom_openParen {first : Token} (h : first.kind = .openParen) (rest : List Token) :
    atom type (first :: rest) = group type rest := by
  rw [atom.eq_def]
  dsimp only
  rw [h]

theorem atom_complete : Complete (atom type) Atom (· == .dot) (bound + 1) := by
  intro used value rest h hlength hends
  cases h with
  | named hpath =>
      obtain ⟨first, more, rfl, hfirst⟩ := exists_cons_of_path hpath
      rw [List.cons_append, atom.eq_def]
      dsimp only
      rw [hfirst]
      exact map_of_ok (path_complete hpath hends)
  | @var name hname =>
      have hother : name.kind ≠ .upperName ∧ name.kind ≠ .openBrace ∧ name.kind ≠ .openParen := by
        refine ⟨?_, ?_, ?_⟩ <;> intro hkind <;> rw [hkind] at hname <;> cases hname
      rw [List.cons_append, List.nil_append, atom.eq_def]
      dsimp only
      split
      · next hkind => exact absurd hkind hother.1
      · next hkind => exact absurd hkind hother.2.1
      · next hkind => exact absurd hkind hother.2.2
      · rw [if_pos hname]
  | emptyRecord hopen hclose =>
      rw [List.cons_append, atom_openBrace hopen, List.cons_append, record,
        bind_of_ok (optional_cons hclose _)]
      rfl
  | record hopen hfields hclose =>
      simp only [List.length_cons, List.length_append, List.length_nil] at hlength
      rw [List.cons_append, atom_openBrace hopen, List.append_assoc]
      exact record_complete htype hfields (by omega) hclose
  | extensible hopen hbase hbar hfields hclose =>
      simp only [List.length_cons, List.length_append, List.length_nil] at hlength
      rw [List.cons_append, atom_openBrace hopen, List.cons_append, List.cons_append, List.append_assoc]
      exact extensible_complete htype hbase hbar hfields (by omega) hclose
  | unit hopen hclose =>
      rw [List.cons_append, atom_openParen hopen, List.cons_append, group,
        bind_of_ok (optional_cons hclose _)]
      rfl
  | group hopen hform hclose =>
      simp only [List.length_cons, List.length_append, List.length_nil] at hlength
      rw [List.cons_append, atom_openParen hopen, List.append_assoc]
      exact group_complete htype (.last hform) (by omega) hclose (.inl rfl)
  | tuple hopen hitems hmany hclose =>
      simp only [List.length_cons, List.length_append, List.length_nil] at hlength
      rw [List.cons_append, atom_openParen hopen, List.append_assoc]
      exact group_complete htype hitems (by omega) hclose (.inr ⟨hmany, rfl⟩)

omit htype in
/-- Arguments do not go on with the path before them. -/
theorem Ends.arguments {used rest : List Token} {args : List TypeExpr} (h : Repeated Atom used args)
    (hends : Ends Kind.extendsApplied rest) : Ends (· == .dot) (used ++ rest) := by
  cases h with
  | nil => exact hends.path
  | cons hatom _ =>
      obtain ⟨first, more, rfl, hfirst⟩ := exists_cons_of_atom hatom
      exact .cons (dot_of_beginsAtom hfirst)

theorem arguments_complete {used rest : List Token} {args : List TypeExpr} (h : Repeated Atom used args)
    (hlength : used.length < bound + 1) (hends : Ends Kind.extendsApplied rest) {count : Nat}
    (hcount : (used ++ rest).length ≤ count) : arguments type count (used ++ rest) = .ok (args, rest) := by
  induction h generalizing count with
  | nil =>
      cases count with
      | zero => rfl
      | succ count =>
          have hget : (get : Rule (List Token)) rest = .ok (rest, rest) := rfl
          rw [List.nil_append, arguments, bind_of_ok hget, startsAtom_of_ends hends.atoms]
          rfl
  | @cons tokens others value values hatom hrepeated ih =>
      rw [List.length_append] at hlength
      have hfirst := atom_complete htype hatom (by omega) (Ends.arguments hrepeated hends)
      obtain ⟨first, more, rfl, hbegins⟩ := exists_cons_of_atom hatom
      simp only [List.length_append, List.length_cons] at hcount
      obtain ⟨count, rfl⟩ : ∃ smaller, count = smaller + 1 := ⟨count - 1, by omega⟩
      have hothers : arguments type count (others ++ rest) = .ok (values, rest) :=
        ih (by omega) (by rw [List.length_append]; omega)
      rw [List.append_assoc] at *
      have hget : (get : Rule (List Token)) (first :: more ++ (others ++ rest)) =
          .ok (first :: more ++ (others ++ rest), first :: more ++ (others ++ rest)) := rfl
      rw [arguments, bind_of_ok hget, List.cons_append, startsAtom_cons, hbegins, if_pos rfl,
        ← List.cons_append, bind_of_ok hfirst, bind_of_ok hothers]
      rfl

theorem constructor_complete : Complete (constructor type) Alternative Kind.extendsApplied (bound + 1) := by
  rintro used value rest ⟨hpath, hargs⟩ hlength hends
  rw [List.length_append] at hlength
  rw [List.append_assoc, constructor, bind_of_ok (path_complete hpath (Ends.arguments hargs hends)),
    bind_of_ok rfl, bind_of_ok (arguments_complete htype hargs (by omega) hends (Nat.le_refl _))]
  rfl

omit htype in
/-- An atom is a path, or begins with another token than one does. -/
theorem path_or_of_atom {used : List Token} {value : TypeExpr} (h : Atom used value) :
    (∃ names, Qualified used names ∧ value = .named (".".intercalate names) []) ∨
      ∃ first more, used = first :: more ∧ first.kind ≠ .upperName := by
  cases h with
  | named hpath => exact .inl ⟨_, hpath, rfl⟩
  | var hname =>
      refine .inr ⟨_, _, rfl, fun hkind => ?_⟩
      rw [hkind] at hname
      cases hname
  | emptyRecord hopen _ => exact .inr ⟨_, _, rfl, by rw [hopen]; decide⟩
  | record hopen _ _ => exact .inr ⟨_, _, rfl, by rw [hopen]; decide⟩
  | extensible hopen _ _ _ _ => exact .inr ⟨_, _, rfl, by rw [hopen]; decide⟩
  | unit hopen _ => exact .inr ⟨_, _, rfl, by rw [hopen]; decide⟩
  | group hopen _ _ => exact .inr ⟨_, _, rfl, by rw [hopen]; decide⟩
  | tuple hopen _ _ _ => exact .inr ⟨_, _, rfl, by rw [hopen]; decide⟩

theorem applied_complete : Complete (applied type) Applied Kind.extendsApplied (bound + 1) := by
  have hnamed :
      ∀ ⦃tokens args : List Token⦄ ⦃names : List String⦄ ⦃values : List TypeExpr⦄ ⦃rest : List Token⦄,
      Qualified tokens names → Repeated Atom args values → (tokens ++ args).length < bound + 1 →
      Ends Kind.extendsApplied rest →
      applied type (tokens ++ args ++ rest) = .ok (.named (".".intercalate names) values, rest) := by
    intro tokens args names values rest hpath hargs hlength hends
    have hconstructor := constructor_complete htype (.intro hpath hargs) hlength hends
    obtain ⟨first, more, rfl, hfirst⟩ := exists_cons_of_path hpath
    rw [List.cons_append, List.cons_append] at hconstructor ⊢
    unfold applied
    dsimp only
    rw [if_pos hfirst]
    exact map_of_ok hconstructor
  intro used value rest h hlength hends
  cases h with
  | named hpath hargs => exact hnamed hpath hargs hlength hends
  | atom hatom =>
      rcases path_or_of_atom hatom with ⟨names, hpath, rfl⟩ | ⟨first, more, rfl, hfirst⟩
      · have happlied := hnamed hpath .nil (by rwa [List.append_nil]) hends
        rwa [List.append_nil] at happlied
      · have hform := atom_complete htype hatom hlength hends.path
        rw [List.cons_append] at hform ⊢
        unfold applied
        dsimp only
        rw [if_neg hfirst]
        exact hform

theorem typeBody_complete : Complete (typeBody type) Annotation Kind.extendsType (bound + 1) := by
  intro used value rest h hlength hends
  have hparts : ∀ {parts : List TypeExpr}, Separated .arrow Applied used parts →
      separated .arrow (applied type) (used ++ rest) = .ok (parts, rest) :=
    fun hseparated => separated_complete (applied_complete htype) rfl hseparated hlength hends
  cases h with
  | applied happlied =>
      rw [typeBody, bind_of_ok (hparts (.last happlied))]
      rfl
  | @function _ parts hseparated hmany =>
      rw [typeBody, bind_of_ok (hparts hseparated)]
      match parts, hmany with
      | _ :: _ :: _, _ => rfl

end

theorem typeOfDepth_complete (depth : Nat) :
    Complete (typeOfDepth depth) Annotation Kind.extendsType depth := by
  induction depth with
  | zero =>
      intro used value rest _ hlength _
      exact absurd hlength (Nat.not_lt_zero _)
  | succ depth ih => exact typeBody_complete ih

theorem type_complete (bound : Nat) : Complete type Annotation Kind.extendsType bound := by
  intro used value rest h _ hends
  refine typeOfDepth_complete _ h ?_ hends
  rw [List.length_append]
  omega

/-! ### Declarations -/

theorem exposedItem_complete (bound : Nat) : Complete exposedItem Item (· == .openParen) bound := by
  intro used value rest h _ hends
  have hupper : ∀ {name : Token} (rest : List Token), name.kind = .upperName →
      exposedItem (name :: rest) = (ExposedItem.type name.text <$> constructorsMark) rest := by
    intro name rest hname
    rw [exposedItem.eq_def]
    dsimp only
    rw [hname]
  cases h with
  | @value name hname =>
      have hother : name.kind ≠ .upperName ∧ name.kind ≠ .openParen := by
        refine ⟨?_, ?_⟩ <;> intro hkind <;> rw [hkind] at hname <;> cases hname
      rw [List.cons_append, List.nil_append, exposedItem.eq_def]
      dsimp only
      split
      · next hkind => exact absurd hkind hother.1
      · next hkind => exact absurd hkind hother.2
      · rw [if_pos hname]
  | type hname =>
      have hmark : constructorsMark rest = .ok (false, rest) := by
        cases rest with
        | nil => rfl
        | cons opener rest =>
            have hopen := hends opener rfl
            rw [beq_eq_false_iff_ne] at hopen
            cases rest with
            | nil => rfl
            | cons dots rest => exact if_neg fun hcond => hopen hcond.1
      rw [List.cons_append, List.nil_append, hupper rest hname]
      exact map_of_ok hmark
  | @constructors name opener dots closer hname hopen hdots hclose =>
      have hmark : constructorsMark (opener :: dots :: closer :: rest) = .ok (true, rest) := by
        rw [constructorsMark, if_pos ⟨hopen, hdots⟩]
        exact map_of_ok (token_cons hclose rest)
      show exposedItem (name :: opener :: dots :: closer :: rest) = _
      rw [hupper _ hname]
      exact map_of_ok hmark
  | @operator opener symbol closer hopen hsymbol hclose =>
      show exposedItem (opener :: symbol :: closer :: rest) = _
      rw [exposedItem.eq_def]
      dsimp only
      rw [hopen]
      dsimp only
      rw [exposedOperator, bind_of_ok (token_cons hsymbol _), bind_of_ok (token_cons hclose rest)]
      rfl

/-- An entry of an `exposing` list does not begin with the dots that stand for all. -/
theorem exists_cons_of_item (used : List Token) (item : ExposedItem) (h : Item used item) :
    ∃ first more, used = first :: more ∧ (first.kind == .dotDot) = false := by
  cases h with
  | value hname =>
      refine ⟨_, _, rfl, beq_false_of_ne fun hkind => ?_⟩
      rw [hkind] at hname
      cases hname
  | type hname => exact ⟨_, _, rfl, by rw [hname]; rfl⟩
  | constructors hname _ _ _ => exact ⟨_, _, rfl, by rw [hname]; rfl⟩
  | operator hopen _ _ => exact ⟨_, _, rfl, by rw [hopen]; rfl⟩

theorem exposing_complete {used rest : List Token} {exposed : Exposing} (h : Clause used exposed)
    (hends : Ends (· == .exposingWord) rest) : exposing (used ++ rest) = .ok (exposed, rest) := by
  cases h with
  | nothing =>
      rw [List.nil_append, exposing, bind_of_ok (optional_of_ends hends)]
      rfl
  | @all word opener dots closer hword hopen hdots hclose =>
      show exposing (word :: opener :: dots :: closer :: rest) = _
      rw [exposing, bind_of_ok (optional_cons hword _), if_pos rfl, bind_of_ok (token_cons hopen _),
        Rule.exposed, bind_of_ok (optional_cons hdots _), if_pos rfl, bind_of_ok (token_cons hclose rest)]
      rfl
  | @list word opener closer tokens items hword hopen hitems hclose =>
      have hlist : separated .comma exposedItem (tokens ++ closer :: rest) = .ok (items, closer :: rest) := by
        refine separated_complete (exposedItem_complete (tokens.length + 1)) rfl hitems
          (Nat.lt_succ_self _) (.cons ?_)
        rw [hclose]
        rfl
      have hdots : optional .dotDot (tokens ++ closer :: rest) = .ok (false, tokens ++ closer :: rest) := by
        obtain ⟨first, more, rfl, hfirst⟩ := exists_cons_of_separated exists_cons_of_item hitems
        exact optional_of_ends (.cons hfirst)
      rw [List.cons_append, List.cons_append, List.append_assoc, List.singleton_append, exposing,
        bind_of_ok (optional_cons hword _), if_pos rfl, bind_of_ok (token_cons hopen _), Rule.exposed,
        bind_of_ok hdots]
      show exposedItems _ = _
      rw [exposedItems, bind_of_ok hlist, bind_of_ok (token_cons hclose rest)]
      rfl

/-- Tokens whose braces have partners change nothing of what is still to be closed. -/
theorem closeBlock_balanced {inner : List Token} (h : Balanced inner) (depth : Nat) (rest : List Token) :
    closeBlock depth (inner ++ rest) = closeBlock depth rest := by
  induction h generalizing depth rest with
  | nil => rfl
  | other hopen hclose _ ih =>
      rw [List.cons_append, closeBlock.eq_def]
      dsimp only
      rw [if_neg hopen, if_neg hclose, ih]
  | @nested opener closer inner others hopen _ hclose _ ihinner ihrest =>
      rw [List.cons_append, List.append_assoc, List.cons_append, closeBlock.eq_def]
      dsimp only
      rw [if_pos hopen, ihinner, closeBlock.eq_def]
      dsimp only
      rw [if_neg (by rw [hclose]; decide), if_pos hclose, ihrest]

theorem whereBlock_complete {used rest : List Token} (h : Block .effect used)
    (hends : Ends (· == .whereWord) rest) : whereBlock (used ++ rest) = .ok ((), rest) := by
  cases h with
  | missing =>
      rw [List.nil_append, whereBlock, bind_of_ok (optional_of_ends hends)]
      rfl
  | @braces word opener closer inner hword hopen hinner hclose =>
      rw [List.cons_append, List.cons_append, List.append_assoc, List.singleton_append, whereBlock,
        bind_of_ok (optional_cons hword _), if_pos rfl, bind_of_ok (token_cons hopen _),
        closeBlock_balanced hinner, closeBlock.eq_def]
      dsimp only
      rw [if_neg (by rw [hclose]; decide), if_pos hclose]

theorem shortName_complete {used rest : List Token} {short : Option String} (h : ShortName used short)
    (hends : Ends (· == .asWord) rest) : shortName (used ++ rest) = .ok (short, rest) := by
  cases h with
  | missing =>
      rw [List.nil_append, shortName, bind_of_ok (optional_of_ends hends)]
      rfl
  | @given word name hword hname =>
      show shortName (word :: name :: rest) = _
      rw [shortName, bind_of_ok (optional_cons hword _), if_pos rfl, bind_of_ok (upperName_cons hname rest)]
      rfl

theorem declaredName_complete {used rest : List Token} {name : String} (h : DeclaredName used name) :
    declaredName (used ++ rest) = .ok (name, rest) := by
  obtain @⟨name, equals, parameters, hname, hparameters, hequals⟩ := h
  have hdrop : Rule.parameters (parameters ++ equals :: rest) = .ok ((), equals :: rest) := by
    have hstop : equals.kind.isName = false := by
      rw [hequals]
      rfl
    rw [Rule.parameters, List.dropWhile_append_of_pos hparameters,
      List.dropWhile_cons_of_neg (by rw [hstop]; decide)]
  rw [List.cons_append, List.append_assoc, List.singleton_append, declaredName,
    bind_of_ok (upperName_cons hname _), bind_of_ok hdrop, bind_of_ok (token_cons hequals rest)]
  rfl

/-- A clause begins with its word, if there is one. -/
theorem Ends.clause {goesOn : Kind → Bool} {used : List Token} {exposed : Exposing} (h : Clause used exposed)
    (hword : goesOn .exposingWord = false) : Ends goesOn used := by
  cases h with
  | nothing => exact .nil
  | all hkind _ _ _ => exact .cons (by rw [hkind, hword])
  | list hkind _ _ _ => exact .cons (by rw [hkind, hword])

theorem header_complete {kind : ModuleKind} {tokens block rest : List Token} {names : List String}
    {exposed : Exposing} (hpath : Qualified tokens names) (hblock : Block kind block)
    (hclause : Clause rest exposed) (position : Position) :
    header kind position (tokens ++ (block ++ rest)) =
      .ok (⟨kind, ".".intercalate names, exposed, position⟩, []) := by
  have hexposing : exposing rest = .ok (exposed, []) := by
    have hwhole := exposing_complete hclause Ends.nil
    rwa [List.append_nil] at hwhole
  have hends : Ends (· == .dot) (block ++ rest) := by
    cases hblock with
    | missing => exact Ends.clause hclause rfl
    | braces hword _ _ _ => exact .cons (by rw [hword]; rfl)
  rw [header, bind_of_ok (path_complete hpath hends)]
  dsimp only
  cases kind with
  | effect =>
      rw [if_pos rfl, bind_of_ok (whereBlock_complete hblock (Ends.clause hclause rfl))]
      rw [bind_of_ok hexposing]
      rfl
  | plain =>
      cases hblock
      rw [if_neg (by decide), List.nil_append, bind_of_ok hexposing]
      rfl
  | port =>
      cases hblock
      rw [if_neg (by decide), List.nil_append, bind_of_ok hexposing]
      rfl

theorem imported_complete {tokens short rest : List Token} {names : List String} {shortName : Option String}
    {exposed : Exposing} (hpath : Qualified tokens names) (hshort : ShortName short shortName)
    (hclause : Clause rest exposed) (position : Position) :
    imported position (tokens ++ (short ++ rest)) =
      .ok (⟨".".intercalate names, shortName, exposed, position⟩, []) := by
  have hexposing : exposing rest = .ok (exposed, []) := by
    have hwhole := exposing_complete hclause Ends.nil
    rwa [List.append_nil] at hwhole
  have hends : Ends (· == .dot) (short ++ rest) := by
    cases hshort with
    | missing => exact Ends.clause hclause rfl
    | given hword _ => exact .cons (by rw [hword]; rfl)
  rw [imported, bind_of_ok (path_complete hpath hends),
    bind_of_ok (shortName_complete hshort (Ends.clause hclause rfl)), bind_of_ok hexposing]
  rfl

theorem union_complete {tokens rest : List Token} {name : String} {constructors : List Constructor}
    (hname : DeclaredName tokens name) (hconstructors : Separated .pipe Alternative rest constructors)
    (position : Position) : union position (tokens ++ rest) = .ok (⟨name, constructors, position⟩, []) := by
  have hall : separated .pipe (constructor type) rest = .ok (constructors, []) := by
    have hwhole := separated_complete (constructor_complete (type_complete rest.length)) rfl hconstructors
      (Nat.lt_succ_self _) Ends.nil
    rwa [List.append_nil] at hwhole
  rw [union, bind_of_ok (declaredName_complete hname), bind_of_ok hall]
  rfl

theorem aliased_complete {tokens rest : List Token} {name : String} {value : TypeExpr}
    (hname : DeclaredName tokens name) (hvalue : Annotation rest value) (position : Position) :
    aliased position (tokens ++ rest) = .ok (⟨name, value, position⟩, []) := by
  have htype : type rest = .ok (value, []) := by
    have hwhole := type_complete (rest.length + 1) hvalue (Nat.lt_succ_self _) Ends.nil
    rwa [List.append_nil] at hwhole
  rw [aliased, bind_of_ok (declaredName_complete hname), bind_of_ok htype]
  rfl

/-- The tokens of a declaration are read as that declaration, and none is left. -/
theorem declaration_complete {position : Position} {opening : Opening} {used : List Token}
    {statement : Statement} (h : Body position opening used statement) :
    declaration opening position used = .ok (statement, []) := by
  cases h with
  | header hpath hblock hclause => exact map_of_ok (header_complete hpath hblock hclause position)
  | imported hpath hshort hclause => exact map_of_ok (imported_complete hpath hshort hclause position)
  | union hname hconstructors => exact map_of_ok (union_complete hname hconstructors position)
  | aliased hname hvalue => exact map_of_ok (aliased_complete hname hvalue position)

end Rule

end ElmNavigation
