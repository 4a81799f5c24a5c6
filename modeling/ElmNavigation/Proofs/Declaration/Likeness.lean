import ElmNavigation.Declaration.Grammar
import ElmNavigation.Proofs.Declaration.Recursion
import ElmNavigation.Proofs.Token.Breaks
import Mathlib.Data.List.Forall2

/-! What a rule can see of its tokens. A rule asks for the kind of a token, for the text of a name or an
operator, and, inside a path, whether two tokens touch; nothing else of a token matters. So a rule cannot
tell two lists apart whose tokens agree in these: it takes corresponding tokens of both and gives the same
value, or fails at the same place with the same expectation. Tokens of one text that were moved, and
tokens of two texts that differ only in blanks, comments and literals, agree in this way.

No rule goes on behind a token of unknown kind but the one that looks for the end of a block, and this one
passes over operators. So operators behind such a token may be missing from one of the lists. The lists
then differ in length, and so do the bounds that rules take from it; but these are never felt. -/

namespace ElmNavigation

namespace Token

/-- A relation under which no rule can tell tokens apart. -/
structure Likeness (like : Token → Token → Prop) : Prop where
  kind {a b : Token} (h : like a b) : b.kind = a.kind
  text {a b : Token} (h : like a b)
    (hread : a.kind.isName = true ∨ a.kind = .upperName ∨ a.kind = .operator) : b.text = a.text
  touching {a b c d : Token} (h : like a b) (h' : like c d) (hjoined : a.kind = .upperName ∨ a.kind = .dot) :
    d.start = b.stop ↔ c.start = a.stop

theorem likeness_move (bytes : Nat) : Likeness fun a b => b = a.move bytes where
  kind := by
    rintro a _ rfl
    rfl
  text := by
    rintro a _ rfl _
    rfl
  touching := by
    rintro a _ c _ rfl rfl _
    rw [move_start, move_stop]
    omega

/-- Two lists are at an end, or begin with tokens that are alike and go on in related ways. Behind a token
of unknown kind operators may be missing from the second list. -/
inductive Onward (like : Token → Token → Prop) (ahead : List Token → List Token → Prop) :
    List Token → List Token → Prop where
  | nil : Onward like ahead [] []
  | token {a b : Token} {rest rest' : List Token} (hhead : like a b) (hrest : ahead rest rest') :
      Onward like ahead (a :: rest) (b :: rest')
  | trailing {a b : Token} {extra rest rest' : List Token} (hhead : like a b) (hkind : a.kind = .unknown)
      (hextra : ∀ token ∈ extra, token.kind = .operator) (hrest : ahead rest rest') :
      Onward like ahead (a :: (extra ++ rest)) (b :: rest')

/-- A relation between the tokens that two rules have ahead of them, under which they cannot tell them
apart. -/
structure Simulation (like : Token → Token → Prop) (ahead : List Token → List Token → Prop) : Prop
    extends Likeness like where
  onward {tokens tokens' : List Token} (h : ahead tokens tokens') : Onward like ahead tokens tokens'

theorem Likeness.simulation {like : Token → Token → Prop} (h : Likeness like) :
    Simulation like (List.Forall₂ like) where
  toLikeness := h
  onward := by
    intro tokens tokens' htokens
    cases htokens with
    | nil => exact .nil
    | cons hhead htail => exact .token hhead htail

/-- What one step ahead shows: two ends, or tokens that are alike, behind which the lists go on unless the
kind is unknown. -/
inductive Begins (like : Token → Token → Prop) (ahead : List Token → List Token → Prop) :
    List Token → List Token → Prop where
  | nil : Begins like ahead [] []
  | cons {a b : Token} {rest rest' : List Token} (hhead : like a b)
      (htail : a.kind ≠ .unknown → ahead rest rest') : Begins like ahead (a :: rest) (b :: rest')

theorem Simulation.begins {like : Token → Token → Prop} {ahead : List Token → List Token → Prop}
    (h : Simulation like ahead) {tokens tokens' : List Token} (htokens : ahead tokens tokens') :
    Begins like ahead tokens tokens' := by
  cases h.onward htokens with
  | nil => exact .nil
  | token hhead hrest => exact .cons hhead fun _ => hrest
  | trailing hhead hkind _ _ => exact .cons hhead (absurd hkind)

/-- Tokens of known kinds can be taken from both lists. -/
theorem Simulation.drop {like : Token → Token → Prop} {ahead : List Token → List Token → Prop}
    (h : Simulation like ahead) {tokens tokens' : List Token} (htokens : ahead tokens tokens') (n : Nat)
    (hknown : ∀ token ∈ tokens.take n, token.kind ≠ .unknown) : ahead (tokens.drop n) (tokens'.drop n) := by
  induction n generalizing tokens tokens' with
  | zero => exact htokens
  | succ n ih =>
      cases h.begins htokens with
      | nil => exact htokens
      | cons _ htail => exact ih (htail (hknown _ (.head _))) fun token hmem => hknown token (.tail _ hmem)

end Token

/-- The same declaration at another position. -/
def Statement.place (position : Position) : Statement → Statement
  | header decl => header { decl with position }
  | imported decl => imported { decl with position }
  | union decl => union { decl with position }
  | aliased decl => aliased { decl with position }

namespace Rule

open Sentence

/-- Two results are the same up to their tokens. -/
inductive Agree (like : Token → Token → Prop) (ahead : List Token → List Token → Prop) {α β : Type}
    (same : α → β → Prop) : Except Mismatch (α × List Token) → Except Mismatch (β × List Token) → Prop where
  | ok {value : α} {value' : β} {rest rest' : List Token} (hvalue : same value value')
      (hrest : ahead rest rest') : Agree like ahead same (.ok (value, rest)) (.ok (value', rest'))
  | found (expected : Expected) {token token' : Token} (htoken : like token token') :
      Agree like ahead same (.error (.found expected token)) (.error (.found expected token'))
  | ended (expected : Expected) : Agree like ahead same (.error (.ended expected)) (.error (.ended expected))

/-- Two rules give the same results on tokens that are related. -/
def Respects (like : Token → Token → Prop) (ahead : List Token → List Token → Prop) {α β : Type}
    (same : α → β → Prop) (rule : Rule α) (rule' : Rule β) : Prop :=
  ∀ ⦃tokens tokens' : List Token⦄, ahead tokens tokens' → Agree like ahead same (rule tokens) (rule' tokens')

section

variable {like : Token → Token → Prop} {ahead : List Token → List Token → Prop}

theorem Respects.pure {α β : Type} {same : α → β → Prop} {value : α} {value' : β} (h : same value value') :
    Respects like ahead same (Pure.pure value) (Pure.pure value') :=
  fun _ _ htokens => .ok h htokens

theorem Respects.bind {α β γ δ : Type} {same : α → β → Prop} {same' : γ → δ → Prop} {rule : Rule α}
    {rule' : Rule β} {next : α → Rule γ} {next' : β → Rule δ} (h : Respects like ahead same rule rule')
    (hnext : ∀ value value', same value value' → Respects like ahead same' (next value) (next' value')) :
    Respects like ahead same' (rule >>= next) (rule' >>= next') := by
  intro tokens tokens' htokens
  change Agree like ahead same' (rule tokens >>= fun pair => next pair.1 pair.2)
    (rule' tokens' >>= fun pair => next' pair.1 pair.2)
  have hrule := h htokens
  generalize rule tokens = result, rule' tokens' = result' at hrule
  cases hrule with
  | ok hvalue hrest => exact hnext _ _ hvalue hrest
  | found expected htoken => exact .found expected htoken
  | ended expected => exact .ended expected

theorem Respects.map {α β γ δ : Type} {same : α → β → Prop} {same' : γ → δ → Prop} {rule : Rule α}
    {rule' : Rule β} {f : α → γ} {f' : β → δ} (h : Respects like ahead same rule rule')
    (hf : ∀ value value', same value value' → same' (f value) (f' value')) :
    Respects like ahead same' (f <$> rule) (f' <$> rule') :=
  h.bind fun value value' hvalue => .pure (hf value value' hvalue)

/-- A rule that goes on in one of two ways after an optional token. -/
theorem Respects.ite {α β : Type} {same : α → β → Prop} {yes no : Rule α} {yes' no' : Rule β}
    (hyes : Respects like ahead same yes yes') (hno : Respects like ahead same no no') (seen seen' : Bool)
    (h : seen = seen') :
    Respects like ahead same (if seen then yes else no) (if seen' then yes' else no') := by
  subst h
  cases seen with
  | false => exact hno
  | true => exact hyes

/-- A rule with a bound that grows with the tokens: lists of different lengths bring different bounds, but
each may be replaced by the greater one. -/
theorem Respects.of_bounded {α : Type} {body : Rule α → Rule α} {rule : Rule α} {slack : Nat}
    {bounded : Nat → Rule α} (hbounded : ∀ n, bounded (n + 1) = body (bounded n))
    (hguards : ∀ n, Guards body (bounded n)) (hslack : AgreeBelow slack (bounded 0) (bounded 1))
    (hrule : ∀ tokens, rule tokens = bounded (tokens.length + 1 - slack) tokens)
    (h : ∀ n, Respects like ahead (· = ·) (bounded n) (bounded n)) :
    Respects like ahead (· = ·) rule rule := by
  have hgreater : ∀ {tokens n}, tokens.length + 1 - slack ≤ n → rule tokens = bounded n tokens := by
    intro tokens n hle
    rw [hrule]
    exact agreeBelow_of_le hbounded hguards hslack hle (by omega)
  intro tokens tokens' htokens
  rw [hgreater (Nat.le_max_left _ (tokens'.length + 1 - slack)), hgreater (Nat.le_max_right _ _)]
  exact h _ htokens

end

section

variable {like : Token → Token → Prop} {ahead : List Token → List Token → Prop}
  (hlike : Token.Simulation like ahead)

include hlike

/-! ### Single tokens -/

theorem token_respects {kind : Kind} (hknown : kind ≠ .unknown) :
    Respects like ahead (fun a b => a.kind = kind ∧ like a b) (token kind) (token kind) := by
  intro tokens tokens' htokens
  cases hlike.begins htokens with
  | nil => exact .ended _
  | @cons a b _ _ hhead htail =>
      rw [token, token, hlike.kind hhead]
      split
      · next hkind => exact .ok ⟨hkind, hhead⟩ (htail (by rwa [hkind]))
      · exact .found _ hhead

theorem optional_respects {kind : Kind} (hknown : kind ≠ .unknown) :
    Respects like ahead (· = ·) (optional kind) (optional kind) := by
  intro tokens tokens' htokens
  cases hlike.begins htokens with
  | nil => exact .ok rfl htokens
  | cons hhead htail =>
      rw [optional, optional, hlike.kind hhead]
      split
      · next hkind => exact .ok rfl (htail (by rwa [hkind]))
      · exact .ok rfl htokens

omit hlike in
theorem ne_unknown_of_isName {kind : Kind} (h : kind.isName = true) : kind ≠ .unknown := by
  rintro rfl
  cases h

theorem name_respects : Respects like ahead (· = ·) name name := by
  intro tokens tokens' htokens
  cases hlike.begins htokens with
  | nil => exact .ended _
  | cons hhead htail =>
      rw [name, name, hlike.kind hhead]
      split
      · next hname =>
          rw [hlike.text hhead (.inl hname)]
          exact .ok rfl (htail (ne_unknown_of_isName hname))
      · exact .found _ hhead

theorem upperName_respects : Respects like ahead (· = ·) upperName upperName :=
  (token_respects hlike (by decide)).bind fun _ _ h => .pure (hlike.text h.2 (.inr (.inl h.1))).symm

/-! ### Lists -/

theorem further_respects {α : Type} {separator : Kind} (hseparator : separator ≠ .unknown) {item : Rule α}
    (hitem : Respects like ahead (· = ·) item item) (count : Nat) :
    Respects like ahead (· = ·) (further separator item count) (further separator item count) := by
  induction count with
  | zero => exact .pure rfl
  | succ count ih =>
      refine (optional_respects hlike hseparator).bind (.ite ?_ (.pure rfl))
      refine hitem.bind fun first _ hfirst => ih.bind fun rest _ hrest => ?_
      exact .pure (by rw [hfirst, hrest])

theorem separated_respects {α : Type} (separator : Kind) (hseparator : separator ≠ .unknown) {item : Rule α}
    (hshrinks : Shrinks item) (hitem : Respects like ahead (· = ·) item item) :
    Respects like ahead (· = ·) (separated separator item) (separated separator item) := by
  have hfurther : Respects like ahead (· = ·) (remaining >>= further separator item)
      (remaining >>= further separator item) :=
    .of_bounded (fun _ => rfl) (fun _ => furtherBody_guards separator hshrinks _) (agreeBelow_one rfl)
      (fun _ => rfl) (further_respects hlike hseparator hitem)
  refine hitem.bind fun first _ hfirst => ?_
  rw [← bind_assoc, ← bind_assoc]
  exact hfurther.bind fun rest _ hrest => .pure (by rw [hfirst, hrest])

omit hlike in
theorem qualified_of_ne_dot {token : Token} (h : token.kind ≠ .dot) (stop : Nat) (rest : List Token) :
    qualified stop (token :: rest) = ([], token :: rest) := by
  cases rest with
  | nil => rfl
  | cons part rest => rw [qualified, if_neg fun hjoined => h hjoined.1]

/-- What follows of a path is the same behind parts that are alike. -/
theorem qualified_respects {part part' : Token} (hpart : like part part') (hkind : part.kind = .upperName)
    {tokens tokens' : List Token} (htokens : ahead tokens tokens') :
    (qualified part'.stop tokens').1 = (qualified part.stop tokens).1 ∧
      ahead (qualified part.stop tokens).2 (qualified part'.stop tokens').2 := by
  -- two tokens at a time, so by the length of the list
  induction hlength : tokens.length using Nat.strongRecOn generalizing part part' tokens tokens' with
  | _ length ih =>
      cases hlike.begins htokens with
      | nil => exact ⟨rfl, htokens⟩
      | @cons dot dot' tail tail' hdot htail =>
          by_cases hdotKind : dot.kind = .dot
          · have hahead := htail (by rw [hdotKind]; decide)
            cases hlike.begins hahead with
            | nil => exact ⟨rfl, htokens⟩
            | @cons next next' rest rest' hnext hrest =>
                have htouch := hlike.touching hpart hdot (.inl hkind)
                have htouch' := hlike.touching hdot hnext (.inr hdotKind)
                rw [qualified, qualified]
                simp only [hlike.kind hdot, hlike.kind hnext, htouch, htouch']
                split
                · next h =>
                    have hshort : rest.length < length := by
                      rw [← hlength, List.length_cons, List.length_cons]
                      omega
                    have hnextKind := h.2.2.1
                    obtain ⟨hnames, hleft⟩ :=
                      ih rest.length hshort hnext hnextKind (hrest (by rw [hnextKind]; decide)) rfl
                    exact ⟨by rw [hnames, hlike.text hnext (.inr (.inl hnextKind))], hleft⟩
                · exact ⟨rfl, htokens⟩
          · have hdotKind' : dot'.kind ≠ .dot := by rwa [hlike.kind hdot]
            rw [qualified_of_ne_dot hdotKind, qualified_of_ne_dot hdotKind']
            exact ⟨rfl, htokens⟩

theorem path_respects : Respects like ahead (· = ·) path path := by
  refine (token_respects hlike (by decide)).bind fun first first' hfirst => ?_
  have hparts : Respects like ahead (· = ·) (fun tokens => .ok (qualified first.stop tokens))
      (fun tokens => .ok (qualified first'.stop tokens)) := by
    intro tokens tokens' htokens
    obtain ⟨hnames, hrest⟩ := qualified_respects hlike hfirst.2 hfirst.1 htokens
    exact .ok hnames.symm hrest
  refine hparts.bind fun parts _ hparts => .pure ?_
  rw [hparts, hlike.text hfirst.2 (.inr (.inl hfirst.1))]

/-! ### Type annotations -/

section

variable {type : Rule TypeExpr} (hsound : Sound type Annotation)
  (htype : Respects like ahead (· = ·) type type)

include hsound htype

omit hsound in
theorem field_respects : Respects like ahead (· = ·) (field type) (field type) := by
  refine (name_respects hlike).bind fun name _ hname =>
    (token_respects hlike (by decide)).bind fun _ _ _ => ?_
  refine htype.bind fun inner _ hinner => ?_
  exact .pure (by rw [hname, hinner])

omit hlike hsound htype in
theorem recordBase_of_not_isName {token : Token} (h : token.kind.isName = false) (rest : List Token) :
    recordBase (token :: rest) = .ok (none, token :: rest) := by
  cases rest with
  | nil => rfl
  | cons bar rest => rw [recordBase, h, if_neg (by simp)]

omit hsound htype in
theorem recordBase_respects : Respects like ahead (· = ·) recordBase recordBase := by
  intro tokens tokens' htokens
  cases hlike.begins htokens with
  | nil => exact .ok rfl htokens
  | @cons base base' tail tail' hbase htail =>
      by_cases hname : base.kind.isName = true
      · cases hlike.begins (htail (ne_unknown_of_isName hname)) with
        | nil => exact .ok rfl htokens
        | cons hbar hrest =>
            rw [recordBase, recordBase, hlike.kind hbase, hlike.kind hbar]
            split
            · next h =>
                rw [hlike.text hbase (.inl h.1)]
                exact .ok rfl (hrest (by rw [h.2]; decide))
            · exact .ok rfl htokens
      · rw [Bool.not_eq_true] at hname
        rw [recordBase_of_not_isName hname, recordBase_of_not_isName (by rwa [hlike.kind hbase])]
        exact .ok rfl htokens

theorem recordFields_respects : Respects like ahead (· = ·) (recordFields type) (recordFields type) := by
  refine (recordBase_respects hlike).bind fun base _ hbase => ?_
  have hfields := separated_respects hlike .comma (by decide) (field_consumes hsound).shrinks
    (field_respects hlike htype)
  refine hfields.bind fun fields _ hfields => ?_
  refine (token_respects hlike (by decide)).bind fun _ _ _ => ?_
  exact .pure (by rw [hbase, hfields])

theorem record_respects : Respects like ahead (· = ·) (record type) (record type) :=
  (optional_respects hlike (by decide)).bind (.ite (.pure rfl) (recordFields_respects hlike hsound htype))

theorem groupItems_respects : Respects like ahead (· = ·) (groupItems type) (groupItems type) := by
  refine (separated_respects hlike .comma (by decide) hsound.shrinks htype).bind fun items _ hitems => ?_
  refine (token_respects hlike (by decide)).bind fun _ _ _ => ?_
  exact .pure (by rw [hitems])

theorem group_respects : Respects like ahead (· = ·) (group type) (group type) :=
  (optional_respects hlike (by decide)).bind (.ite (.pure rfl) (groupItems_respects hlike hsound htype))

theorem atom_respects : Respects like ahead (· = ·) (atom type) (atom type) := by
  intro tokens tokens' htokens
  cases hlike.begins htokens with
  | nil => exact .ended _
  | cons hfirst hrest =>
      rw [atom.eq_def, atom.eq_def]
      dsimp only
      rw [hlike.kind hfirst]
      split
      · exact (path_respects hlike).map (fun _ _ h => by rw [h]) htokens
      · next hkind => exact record_respects hlike hsound htype (hrest (by rw [hkind]; decide))
      · next hkind => exact group_respects hlike hsound htype (hrest (by rw [hkind]; decide))
      · split
        · next hname =>
            rw [hlike.text hfirst (.inl hname)]
            exact .ok rfl (hrest (ne_unknown_of_isName hname))
        · exact .found _ hfirst

omit hsound htype in
theorem startsAtom_respects {tokens tokens' : List Token} (htokens : ahead tokens tokens') :
    startsAtom tokens' = startsAtom tokens := by
  cases hlike.begins htokens with
  | nil => rfl
  | cons hfirst _ => rw [startsAtom, startsAtom, hlike.kind hfirst]

theorem arguments_respects (count : Nat) :
    Respects like ahead (· = ·) (arguments type count) (arguments type count) := by
  induction count with
  | zero => exact .pure rfl
  | succ count ih =>
      have hget : Respects like ahead ahead get get := fun _ _ htokens => .ok htokens htokens
      refine hget.bind fun left left' hleft => ?_
      refine .ite ?_ (.pure rfl) _ _ (startsAtom_respects hlike hleft).symm
      refine (atom_respects hlike hsound htype).bind fun first _ hfirst => ih.bind fun rest _ hrest => ?_
      exact .pure (by rw [hfirst, hrest])

theorem constructor_respects : Respects like ahead (· = ·) (constructor type) (constructor type) := by
  have harguments :
      Respects like ahead (· = ·) (remaining >>= arguments type) (remaining >>= arguments type) :=
    .of_bounded (fun _ => rfl) (fun _ => argumentsBody_guards hsound _) (agreeBelow_one rfl) (fun _ => rfl)
      (arguments_respects hlike hsound htype)
  refine (path_respects hlike).bind fun name _ hname => ?_
  rw [← bind_assoc, ← bind_assoc]
  exact harguments.bind fun args _ hargs => .pure (by rw [hname, hargs])

theorem applied_respects : Respects like ahead (· = ·) (applied type) (applied type) := by
  intro tokens tokens' htokens
  unfold applied
  cases hlike.begins htokens with
  | nil => exact .ended _
  | cons hfirst hrest =>
      dsimp only
      rw [hlike.kind hfirst]
      split
      · exact (constructor_respects hlike hsound htype).map (fun _ _ h => by rw [h]) htokens
      · exact atom_respects hlike hsound htype htokens

theorem typeBody_respects : Respects like ahead (· = ·) (typeBody type) (typeBody type) := by
  have hparts := separated_respects hlike .arrow (by decide) (applied_consumes hsound).shrinks
    (applied_respects hlike hsound htype)
  exact hparts.bind fun _ _ hparts => .pure (by rw [hparts])

end

theorem typeOfDepth_respects (depth : Nat) :
    Respects like ahead (· = ·) (typeOfDepth depth) (typeOfDepth depth) := by
  induction depth with
  | zero => exact fun _ _ _ => .ended _
  | succ depth ih => exact typeBody_respects hlike (typeOfDepth_sound depth) ih

theorem type_respects : Respects like ahead (· = ·) type type :=
  .of_bounded (fun _ => rfl) (fun depth _ _ h => typeBody_agree (typeOfDepth_sound depth) h)
    (fun _ hlength => absurd hlength (Nat.not_lt_zero _)) (fun _ => rfl) (typeOfDepth_respects hlike)

/-! ### Declarations -/

omit hlike in
theorem constructorsMark_of_ne_openParen {token : Token} (h : token.kind ≠ .openParen) (rest : List Token) :
    constructorsMark (token :: rest) = .ok (false, token :: rest) := by
  cases rest with
  | nil => rfl
  | cons dots rest => rw [constructorsMark, if_neg fun hmark => h hmark.1]

theorem constructorsMark_respects : Respects like ahead (· = ·) constructorsMark constructorsMark := by
  intro tokens tokens' htokens
  cases hlike.begins htokens with
  | nil => exact .ok rfl htokens
  | @cons opener opener' tail tail' hopener htail =>
      by_cases hkind : opener.kind = .openParen
      · cases hlike.begins (htail (by rw [hkind]; decide)) with
        | nil => exact .ok rfl htokens
        | cons hdots hrest =>
            rw [constructorsMark, constructorsMark, hlike.kind hopener, hlike.kind hdots]
            split
            · next h =>
                have hleft := hrest (by rw [h.2]; decide)
                exact (token_respects hlike (by decide)).map (fun _ _ _ => rfl) hleft
            · exact .ok rfl htokens
      · rw [constructorsMark_of_ne_openParen hkind,
          constructorsMark_of_ne_openParen (by rwa [hlike.kind hopener])]
        exact .ok rfl htokens

theorem exposedItem_respects : Respects like ahead (· = ·) exposedItem exposedItem := by
  have hoperator : Respects like ahead (· = ·) exposedOperator exposedOperator := by
    refine (token_respects hlike (by decide)).bind fun symbol _ hsymbol => ?_
    refine (token_respects hlike (by decide)).bind fun _ _ _ => .pure ?_
    rw [hlike.text hsymbol.2 (.inr (.inr hsymbol.1))]
  intro tokens tokens' htokens
  cases hlike.begins htokens with
  | nil => exact .ended _
  | cons hfirst hrest =>
      rw [exposedItem.eq_def, exposedItem.eq_def]
      dsimp only
      rw [hlike.kind hfirst]
      split
      · next hkind =>
          rw [hlike.text hfirst (.inr (.inl hkind))]
          exact (constructorsMark_respects hlike).map (fun _ _ h => by rw [h]) (hrest (by rw [hkind]; decide))
      · next hkind => exact hoperator (hrest (by rw [hkind]; decide))
      · split
        · next hname =>
            rw [hlike.text hfirst (.inl hname)]
            exact .ok rfl (hrest (ne_unknown_of_isName hname))
        · exact .found _ hfirst

theorem exposing_respects : Respects like ahead (· = ·) exposing exposing := by
  refine (optional_respects hlike (by decide)).bind (.ite ?_ (.pure rfl))
  refine (token_respects hlike (by decide)).bind fun _ _ _ => ?_
  refine (optional_respects hlike (by decide)).bind (.ite ?_ ?_)
  · exact (token_respects hlike (by decide)).bind fun _ _ _ => .pure rfl
  · have hitems := separated_respects hlike .comma (by decide) exposedItem_consumes.shrinks
      (exposedItem_respects hlike)
    refine hitems.bind fun items _ hitems => ?_
    exact (token_respects hlike (by decide)).bind fun _ _ _ => .pure (by rw [hitems])

omit hlike in
/-- The end of a block is looked for behind operators and tokens of unknown kind. -/
theorem closeBlock_passes {passed : List Token}
    (h : ∀ token ∈ passed, token.kind = .operator ∨ token.kind = .unknown) (depth : Nat) (rest : List Token) :
    closeBlock depth (passed ++ rest) = closeBlock depth rest := by
  induction passed with
  | nil => rfl
  | cons token passed ih =>
      rw [List.cons_append, closeBlock.eq_def]
      rcases h token (.head _) with hkind | hkind
      all_goals
        simp only [hkind, reduceCtorEq, if_false]
        exact ih fun other hother => h other (.tail _ hother)

theorem closeBlock_respects (depth : Nat) :
    Respects like ahead (· = ·) (closeBlock depth) (closeBlock depth) := by
  intro tokens tokens' htokens
  -- by the second list, of which every token is passed over one at a time
  induction tokens' generalizing depth tokens with
  | nil =>
      cases hlike.onward htokens with
      | nil => exact .ended _
  | cons first' rest' ih =>
      cases hlike.onward htokens with
      | token hfirst hrest =>
          rw [closeBlock.eq_def, closeBlock.eq_def]
          dsimp only
          rw [hlike.kind hfirst]
          split
          · exact ih (depth + 1) hrest
          · split
            · cases depth with
              | zero => exact .ok rfl hrest
              | succ depth => exact ih depth hrest
            · exact ih depth hrest
      | @trailing first _ extra rest _ hfirst hkind hextra hrest =>
          have hpassed : ∀ token ∈ first :: extra, token.kind = .operator ∨ token.kind = .unknown :=
            List.forall_mem_cons.mpr ⟨.inr hkind, fun token hmem => .inl (hextra token hmem)⟩
          have hpassed' : ∀ token ∈ [first'], token.kind = .operator ∨ token.kind = .unknown :=
            List.forall_mem_singleton.mpr (.inr ((hlike.kind hfirst).trans hkind))
          rw [← List.cons_append, closeBlock_passes hpassed, ← List.singleton_append,
            closeBlock_passes hpassed']
          exact ih depth hrest

theorem whereBlock_respects : Respects like ahead (· = ·) whereBlock whereBlock := by
  refine (optional_respects hlike (by decide)).bind (.ite ?_ (.pure rfl))
  exact (token_respects hlike (by decide)).bind fun _ _ _ => closeBlock_respects hlike 0

theorem header_respects (kind : ModuleKind) (position position' : Position) :
    Respects like ahead (fun decl decl' => decl' = { decl with position := position' }) (header kind position)
      (header kind position') := by
  refine (path_respects hlike).bind fun name _ hname => ?_
  have hrest : Respects like ahead
      (fun decl decl' : ModuleHeader => decl' = { decl with position := position' })
      (do return ⟨kind, name, ← exposing, position⟩) (do return ⟨kind, name, ← exposing, position'⟩) :=
    (exposing_respects hlike).bind fun _ _ hexposed => .pure (by rw [hexposed])
  subst hname
  dsimp only
  split
  · exact (whereBlock_respects hlike).bind fun _ _ _ => hrest
  · exact hrest

theorem imported_respects (position position' : Position) :
    Respects like ahead (fun decl decl' => decl' = { decl with position := position' }) (imported position)
      (imported position') := by
  have hshort : Respects like ahead (· = ·) shortName shortName := by
    refine (optional_respects hlike (by decide)).bind (.ite ?_ (.pure rfl))
    exact (upperName_respects hlike).bind fun _ _ hname => .pure (by rw [hname])
  refine (path_respects hlike).bind fun name _ hname => hshort.bind fun short _ hshort => ?_
  refine (exposing_respects hlike).bind fun exposed _ hexposed => ?_
  exact .pure (by rw [hname, hshort, hexposed])

theorem declaredName_respects : Respects like ahead (· = ·) declaredName declaredName := by
  have hparameters : Respects like ahead (· = ·) parameters parameters := by
    intro tokens tokens' htokens
    refine .ok rfl ?_
    induction tokens generalizing tokens' with
    | nil =>
        cases hlike.begins htokens with
        | nil => exact htokens
    | cons first rest ih =>
        cases hlike.begins htokens with
        | cons hfirst hrest =>
            rw [List.dropWhile_cons, List.dropWhile_cons, hlike.kind hfirst]
            split
            · next hname => exact ih (hrest (ne_unknown_of_isName hname))
            · exact htokens
  refine (upperName_respects hlike).bind fun name _ hname => hparameters.bind fun _ _ _ => ?_
  exact (token_respects hlike (by decide)).bind fun _ _ _ => .pure hname

theorem union_respects (position position' : Position) :
    Respects like ahead (fun decl decl' => decl' = { decl with position := position' }) (union position)
      (union position') := by
  refine (declaredName_respects hlike).bind fun name _ hname => ?_
  have hconstructor := constructor_respects hlike type_sound (type_respects hlike)
  have hlist :=
    separated_respects hlike .pipe (by decide) (constructor_consumes type_sound).shrinks hconstructor
  refine hlist.bind fun constructors _ hconstructors => ?_
  exact .pure (by rw [hname, hconstructors])

theorem aliased_respects (position position' : Position) :
    Respects like ahead (fun decl decl' => decl' = { decl with position := position' }) (aliased position)
      (aliased position') := by
  refine (declaredName_respects hlike).bind fun name _ hname => ?_
  exact (type_respects hlike).bind fun inner _ hinner => .pure (by rw [hname, hinner])

/-- On tokens that are alike a declaration is read in the same way, each at its own position. -/
theorem declaration_respects (opening : Opening) (position position' : Position) :
    Respects like ahead (fun statement statement' => statement' = statement.place position')
      (declaration opening position) (declaration opening position') := by
  cases opening with
  | header kind => exact (header_respects hlike kind position position').map fun _ _ h => by rw [h]; rfl
  | imported => exact (imported_respects hlike position position').map fun _ _ h => by rw [h]; rfl
  | union => exact (union_respects hlike position position').map fun _ _ h => by rw [h]; rfl
  | aliased => exact (aliased_respects hlike position position').map fun _ _ h => by rw [h]; rfl

end

end Rule

end ElmNavigation
