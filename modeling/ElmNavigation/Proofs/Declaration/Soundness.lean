import ElmNavigation.Proofs.Declaration.Sentence

/-! The rules are sound: the tokens that a rule takes from the front of a list spell the value that it gives.
Each rule has one lemma, and a rule that is put together from others is proved from their lemmas alone. In
particular a rule gives back a rest of the tokens that it was given. -/

namespace ElmNavigation.Rule

open Sentence

/-- What a rule takes from the front of its tokens spells its value. -/
def Sound {α : Type} (rule : Rule α) (form : List Token → α → Prop) : Prop :=
  ∀ ⦃tokens : List Token⦄ ⦃value : α⦄ ⦃rest : List Token⦄, rule tokens = .ok (value, rest) →
    ∃ used, tokens = used ++ rest ∧ form used value

theorem bind_eq_ok {α β : Type} {rule : Rule α} {next : α → Rule β} {tokens rest : List Token} {value : β}
    (h : (rule >>= next) tokens = .ok (value, rest)) :
    ∃ first middle, rule tokens = .ok (first, middle) ∧ next first middle = .ok (value, rest) := by
  change (rule tokens >>= fun pair => next pair.1 pair.2) = .ok (value, rest) at h
  cases hrule : rule tokens with
  | error mismatch =>
      rw [hrule] at h
      cases h
  | ok pair =>
      rw [hrule] at h
      exact ⟨pair.1, pair.2, rfl, h⟩

theorem map_eq_ok {α β : Type} {f : α → β} {rule : Rule α} {tokens rest : List Token} {value : β}
    (h : (f <$> rule) tokens = .ok (value, rest)) :
    ∃ first, rule tokens = .ok (first, rest) ∧ f first = value := by
  change (rule tokens >>= fun pair => pure (f pair.1, pair.2)) = .ok (value, rest) at h
  cases hrule : rule tokens with
  | error mismatch =>
      rw [hrule] at h
      cases h
  | ok pair =>
      rw [hrule] at h
      cases h
      exact ⟨pair.1, rfl, rfl⟩

theorem pure_eq_ok {α : Type} {value first : α} {tokens rest : List Token}
    (h : (pure first : Rule α) tokens = .ok (value, rest)) : first = value ∧ tokens = rest := by
  cases h
  exact ⟨rfl, rfl⟩

/-! ### Single tokens -/

theorem token_eq_ok {kind : Kind} {tokens rest : List Token} {first : Token}
    (h : token kind tokens = .ok (first, rest)) : tokens = first :: rest ∧ first.kind = kind := by
  cases tokens with
  | nil => cases h
  | cons t tokens =>
      rw [token] at h
      split at h
      · next hkind =>
          cases h
          exact ⟨rfl, hkind⟩
      · cases h

theorem optional_eq_true {kind : Kind} {tokens rest : List Token}
    (h : optional kind tokens = .ok (true, rest)) :
    ∃ first, tokens = first :: rest ∧ first.kind = kind := by
  cases tokens with
  | nil => cases h
  | cons t tokens =>
      rw [optional] at h
      split at h
      · next hkind =>
          cases h
          exact ⟨t, rfl, hkind⟩
      · cases h

theorem optional_eq_false {kind : Kind} {tokens rest : List Token}
    (h : optional kind tokens = .ok (false, rest)) : tokens = rest := by
  cases tokens with
  | nil =>
      cases h
      rfl
  | cons t tokens =>
      rw [optional] at h
      split at h
      · cases h
      · cases h
        rfl

theorem name_eq_ok {tokens rest : List Token} {text : String} (h : name tokens = .ok (text, rest)) :
    ∃ first, tokens = first :: rest ∧ first.kind.isName = true ∧ text = first.text := by
  cases tokens with
  | nil => cases h
  | cons t tokens =>
      rw [name] at h
      split at h
      · next hname =>
          cases h
          exact ⟨t, rfl, hname, rfl⟩
      · cases h

theorem upperName_eq_ok {tokens rest : List Token} {text : String} (h : upperName tokens = .ok (text, rest)) :
    ∃ first, tokens = first :: rest ∧ first.kind = .upperName ∧ text = first.text := by
  obtain ⟨first, middle, hfirst, h₁⟩ := bind_eq_ok h
  obtain ⟨rfl, hkind⟩ := token_eq_ok hfirst
  obtain ⟨rfl, rfl⟩ := pure_eq_ok h₁
  exact ⟨first, rfl, hkind, rfl⟩

/-! ### Lists -/

theorem further_sound {α : Type} {separator : Kind} {item : Rule α} {form : List Token → α → Prop}
    (hitem : Sound item form) {count : Nat} {tokens rest : List Token} {values : List α}
    (h : further separator item count tokens = .ok (values, rest)) {front : List Token} {first : α}
    (hfirst : form front first) :
    ∃ used, tokens = used ++ rest ∧ Separated separator form (front ++ used) (first :: values) := by
  induction count generalizing tokens values front first with
  | zero =>
      obtain ⟨rfl, rfl⟩ := pure_eq_ok h
      exact ⟨[], rfl, by rw [List.append_nil]; exact .last hfirst⟩
  | succ count ih =>
      rw [further] at h
      obtain ⟨seen, middle, hseen, h₁⟩ := bind_eq_ok h
      cases seen with
      | false =>
          obtain ⟨rfl, rfl⟩ := pure_eq_ok h₁
          obtain rfl := optional_eq_false hseen
          exact ⟨[], rfl, by rw [List.append_nil]; exact .last hfirst⟩
      | true =>
          obtain ⟨mark, rfl, hmark⟩ := optional_eq_true hseen
          obtain ⟨next, middle', hnext, h₂⟩ := bind_eq_ok h₁
          obtain ⟨used, rfl, hform⟩ := hitem hnext
          obtain ⟨others, middle'', hothers, h₃⟩ := bind_eq_ok h₂
          obtain ⟨rfl, rfl⟩ := pure_eq_ok h₃
          obtain ⟨used', rfl, hseparated⟩ := ih hothers hform
          exact ⟨mark :: (used ++ used'), by simp, .more hfirst hmark hseparated⟩

theorem separated_sound {α : Type} {separator : Kind} {item : Rule α} {form : List Token → α → Prop}
    (hitem : Sound item form) : Sound (separated separator item) (Separated separator form) := by
  intro tokens values rest h
  obtain ⟨first, middle, hfirst, h₁⟩ := bind_eq_ok h
  obtain ⟨used, rfl, hform⟩ := hitem hfirst
  obtain ⟨count, middle', hcount, h₂⟩ := bind_eq_ok h₁
  cases hcount
  obtain ⟨others, middle'', hothers, h₃⟩ := bind_eq_ok h₂
  obtain ⟨rfl, rfl⟩ := pure_eq_ok h₃
  obtain ⟨used', rfl, hseparated⟩ := further_sound hitem hothers hform
  exact ⟨used ++ used', by rw [List.append_assoc], hseparated⟩

/-! ### Qualified names -/

/-- What follows a part of a qualified name continues it. -/
theorem qualified_sound (part : Token) (hpart : part.kind = .upperName) (tokens : List Token) :
    ∃ used, tokens = used ++ (qualified part.stop tokens).2 ∧
      Qualified (part :: used) (part.text :: (qualified part.stop tokens).1) := by
  generalize hstop : part.stop = stop
  fun_induction qualified stop tokens generalizing part with
  | case1 stop dot next rest hjoined parts rest' hrest ih =>
      obtain ⟨hdot, hleft, hnext, hright⟩ := hjoined
      obtain ⟨used, hused, hpath⟩ := ih next hnext rfl
      rw [hrest] at hused hpath
      refine ⟨dot :: next :: used, ?_, .more hpart hdot (by rw [hleft, hstop]) hright hpath⟩
      rw [hused]
      rfl
  | case2 stop dot next rest hjoined => exact ⟨[], rfl, .last hpart⟩
  | case3 stop tokens hshort => exact ⟨[], rfl, .last hpart⟩

theorem path_sound :
    Sound path fun used name => ∃ names, Qualified used names ∧ name = ".".intercalate names := by
  intro tokens name rest h
  obtain ⟨first, middle, hfirst, h₁⟩ := bind_eq_ok h
  obtain ⟨rfl, hkind⟩ := token_eq_ok hfirst
  obtain ⟨parts, middle', hparts, h₂⟩ := bind_eq_ok h₁
  obtain ⟨rfl, rfl⟩ := pure_eq_ok h₂
  have hqualified : qualified first.stop middle = (parts, middle') := Except.ok.inj hparts
  obtain ⟨used, hused, hpath⟩ := qualified_sound first hkind middle
  rw [hqualified] at hused hpath
  exact ⟨first :: used, by rw [hused]; rfl, _, hpath, rfl⟩

/-! ### Type annotations -/

section Types

variable {type : Rule TypeExpr} (htype : Sound type Annotation)

include htype

theorem field_sound : Sound (field type) Member := by
  intro tokens value rest h
  obtain ⟨text, middle, hname, h₁⟩ := bind_eq_ok h
  obtain ⟨first, rfl, hkind, rfl⟩ := name_eq_ok hname
  obtain ⟨colon, middle', hmark, h₂⟩ := bind_eq_ok h₁
  obtain ⟨rfl, hcolon⟩ := token_eq_ok hmark
  obtain ⟨inner, middle'', hinner, h₃⟩ := bind_eq_ok h₂
  obtain ⟨rfl, rfl⟩ := pure_eq_ok h₃
  obtain ⟨used, rfl, hform⟩ := htype hinner
  exact ⟨first :: colon :: used, rfl, .intro hkind hcolon hform⟩

theorem recordFields_sound {opener : Token} (hopen : opener.kind = .openBrace) :
    Sound (recordFields type) fun used value => Atom (opener :: used) value := by
  intro tokens value rest h
  obtain ⟨base, middle, hbase, h₁⟩ := bind_eq_ok h
  obtain ⟨fields, middle', hfields, h₂⟩ := bind_eq_ok h₁
  obtain ⟨used, hused, hform⟩ := separated_sound (field_sound htype) hfields
  obtain ⟨closer, middle'', hcloser, h₃⟩ := bind_eq_ok h₂
  obtain ⟨rfl, hclose⟩ := token_eq_ok hcloser
  obtain ⟨rfl, rfl⟩ := pure_eq_ok h₃
  rw [recordBase.eq_def] at hbase
  split at hbase
  · next base' bar rest' =>
      split at hbase
      · next hcommit =>
          cases hbase
          refine ⟨base' :: bar :: (used ++ [closer]), ?_, .extensible hopen hcommit.1 hcommit.2 hform hclose⟩
          rw [hused]
          simp
      · cases hbase
        exact ⟨used ++ [closer], by rw [hused]; simp, .record hopen hform hclose⟩
  · cases hbase
    exact ⟨used ++ [closer], by rw [hused]; simp, .record hopen hform hclose⟩

theorem record_sound {opener : Token} (hopen : opener.kind = .openBrace) :
    Sound (record type) fun used value => Atom (opener :: used) value := by
  intro tokens value rest h
  obtain ⟨closed, middle, hclosed, h₁⟩ := bind_eq_ok h
  cases closed with
  | true =>
      obtain ⟨closer, rfl, hclose⟩ := optional_eq_true hclosed
      obtain ⟨rfl, rfl⟩ := pure_eq_ok h₁
      exact ⟨[closer], rfl, .emptyRecord hopen hclose⟩
  | false =>
      obtain rfl := optional_eq_false hclosed
      exact recordFields_sound htype hopen h₁

theorem groupItems_sound {opener : Token} (hopen : opener.kind = .openParen) :
    Sound (groupItems type) fun used value => Atom (opener :: used) value := by
  intro tokens value rest h
  obtain ⟨items, middle, hitems, h₁⟩ := bind_eq_ok h
  obtain ⟨used, rfl, hform⟩ := separated_sound htype hitems
  obtain ⟨closer, middle', hcloser, h₂⟩ := bind_eq_ok h₁
  obtain ⟨rfl, hclose⟩ := token_eq_ok hcloser
  obtain ⟨rfl, rfl⟩ := pure_eq_ok h₂
  refine ⟨used ++ [closer], by simp, ?_⟩
  cases hform with
  | last hitem => exact .group hopen hitem hclose
  | @more front others item items mark hitem hmark hothers =>
      cases hothers with
      | last hitem' => exact .tuple hopen (.more hitem hmark (.last hitem')) (by simp) hclose
      | more hitem' hmark' hothers' =>
          exact .tuple hopen (.more hitem hmark (.more hitem' hmark' hothers')) (by simp) hclose

theorem group_sound {opener : Token} (hopen : opener.kind = .openParen) :
    Sound (group type) fun used value => Atom (opener :: used) value := by
  intro tokens value rest h
  obtain ⟨closed, middle, hclosed, h₁⟩ := bind_eq_ok h
  cases closed with
  | true =>
      obtain ⟨closer, rfl, hclose⟩ := optional_eq_true hclosed
      obtain ⟨rfl, rfl⟩ := pure_eq_ok h₁
      exact ⟨[closer], rfl, .unit hopen hclose⟩
  | false =>
      obtain rfl := optional_eq_false hclosed
      exact groupItems_sound htype hopen h₁

theorem atom_sound : Sound (atom type) Atom := by
  intro tokens value rest h
  cases tokens with
  | nil => cases h
  | cons first tokens =>
      rw [atom] at h
      split at h
      · obtain ⟨name, hname, rfl⟩ := map_eq_ok h
        obtain ⟨used, hused, names, hpath, rfl⟩ := path_sound hname
        exact ⟨used, hused, .named hpath⟩
      · next hopen =>
          obtain ⟨used, rfl, hform⟩ := record_sound htype hopen h
          exact ⟨first :: used, rfl, hform⟩
      · next hopen =>
          obtain ⟨used, rfl, hform⟩ := group_sound htype hopen h
          exact ⟨first :: used, rfl, hform⟩
      · split at h
        · next hname =>
            cases h
            exact ⟨[first], rfl, .var hname⟩
        · cases h

theorem arguments_sound (count : Nat) : Sound (arguments type count) (Repeated Atom) := by
  induction count with
  | zero =>
      intro tokens values rest h
      obtain ⟨rfl, rfl⟩ := pure_eq_ok h
      exact ⟨[], rfl, .nil⟩
  | succ count ih =>
      intro tokens values rest h
      rw [arguments] at h
      obtain ⟨tokens', middle, hget, h₁⟩ := bind_eq_ok h
      cases hget
      split at h₁
      · obtain ⟨first, middle', hfirst, h₂⟩ := bind_eq_ok h₁
        obtain ⟨used, rfl, hform⟩ := atom_sound htype hfirst
        obtain ⟨others, middle'', hothers, h₃⟩ := bind_eq_ok h₂
        obtain ⟨rfl, rfl⟩ := pure_eq_ok h₃
        obtain ⟨used', rfl, hforms⟩ := ih hothers
        exact ⟨used ++ used', by rw [List.append_assoc], .cons hform hforms⟩
      · obtain ⟨rfl, rfl⟩ := pure_eq_ok h₁
        exact ⟨[], rfl, .nil⟩

theorem constructor_sound : Sound (constructor type) Alternative := by
  intro tokens value rest h
  obtain ⟨name, middle, hname, h₁⟩ := bind_eq_ok h
  obtain ⟨used, rfl, names, hpath, rfl⟩ := path_sound hname
  obtain ⟨count, middle', hcount, h₂⟩ := bind_eq_ok h₁
  cases hcount
  obtain ⟨args, middle'', hargs, h₃⟩ := bind_eq_ok h₂
  obtain ⟨rfl, rfl⟩ := pure_eq_ok h₃
  obtain ⟨used', rfl, hforms⟩ := arguments_sound htype _ hargs
  exact ⟨used ++ used', by rw [List.append_assoc], .intro hpath hforms⟩

theorem applied_sound : Sound (applied type) Applied := by
  intro tokens value rest h
  unfold applied at h
  split at h
  · split at h
    · obtain ⟨named, hnamed, rfl⟩ := map_eq_ok h
      obtain ⟨used, hused, hform⟩ := constructor_sound htype hnamed
      cases hform with
      | intro hpath hargs => exact ⟨_, hused, .named hpath hargs⟩
    · obtain ⟨used, hused, hform⟩ := atom_sound htype h
      exact ⟨used, hused, .atom hform⟩
  · obtain ⟨used, hused, hform⟩ := atom_sound htype h
    exact ⟨used, hused, .atom hform⟩

theorem typeBody_sound : Sound (typeBody type) Annotation := by
  intro tokens value rest h
  obtain ⟨parts, middle, hparts, h₁⟩ := bind_eq_ok h
  obtain ⟨used, rfl, hform⟩ := separated_sound (applied_sound htype) hparts
  obtain ⟨rfl, rfl⟩ := pure_eq_ok h₁
  refine ⟨used, rfl, ?_⟩
  cases hform with
  | last hpart => exact .applied hpart
  | more hpart hmark hothers =>
      cases hothers with
      | last hpart' => exact .function (.more hpart hmark (.last hpart')) (by simp)
      | more hpart' hmark' hothers' =>
          exact .function (.more hpart hmark (.more hpart' hmark' hothers')) (by simp)

end Types

theorem typeOfDepth_sound (depth : Nat) : Sound (typeOfDepth depth) Annotation := by
  induction depth with
  | zero =>
      intro tokens value rest h
      cases h
  | succ depth ih => exact typeBody_sound ih

theorem type_sound : Sound type Annotation := by
  intro tokens value rest h
  exact typeOfDepth_sound _ h

/-! ### Declarations -/

theorem exposedItem_sound : Sound exposedItem Item := by
  intro tokens value rest h
  cases tokens with
  | nil => cases h
  | cons first tokens =>
      rw [exposedItem] at h
      split at h
      · next hname =>
          obtain ⟨marked, hmarked, rfl⟩ := map_eq_ok h
          rw [constructorsMark.eq_def] at hmarked
          split at hmarked
          · next opener dots tokens =>
              split at hmarked
              · next hcommit =>
                  obtain ⟨closer, hcloser, rfl⟩ := map_eq_ok hmarked
                  obtain ⟨rfl, hclose⟩ := token_eq_ok hcloser
                  exact ⟨[first, opener, dots, closer], rfl, .constructors hname hcommit.1 hcommit.2 hclose⟩
              · cases hmarked
                exact ⟨[first], rfl, .type hname⟩
          · cases hmarked
            exact ⟨[first], rfl, .type hname⟩
      · next hopen =>
          obtain ⟨symbol, middle, hsymbol, h₁⟩ := bind_eq_ok h
          obtain ⟨rfl, hkind⟩ := token_eq_ok hsymbol
          obtain ⟨closer, middle', hcloser, h₂⟩ := bind_eq_ok h₁
          obtain ⟨rfl, hclose⟩ := token_eq_ok hcloser
          obtain ⟨rfl, rfl⟩ := pure_eq_ok h₂
          exact ⟨[first, symbol, closer], rfl, .operator hopen hkind hclose⟩
      · split at h
        · next hname =>
            cases h
            exact ⟨[first], rfl, .value hname⟩
        · cases h

theorem exposed_sound {word opener : Token} (hword : word.kind = .exposingWord)
    (hopen : opener.kind = .openParen) :
    Sound exposed fun used value => Clause (word :: opener :: used) value := by
  intro tokens value rest h
  obtain ⟨all, middle, hall, h₁⟩ := bind_eq_ok h
  cases all with
  | true =>
      obtain ⟨dots, rfl, hdots⟩ := optional_eq_true hall
      obtain ⟨closer, middle', hcloser, h₂⟩ := bind_eq_ok h₁
      obtain ⟨rfl, hclose⟩ := token_eq_ok hcloser
      obtain ⟨rfl, rfl⟩ := pure_eq_ok h₂
      exact ⟨[dots, closer], rfl, .all hword hopen hdots hclose⟩
  | false =>
      obtain rfl := optional_eq_false hall
      obtain ⟨items, middle', hitems, h₂⟩ := bind_eq_ok h₁
      obtain ⟨used, rfl, hform⟩ := separated_sound exposedItem_sound hitems
      obtain ⟨closer, middle'', hcloser, h₃⟩ := bind_eq_ok h₂
      obtain ⟨rfl, hclose⟩ := token_eq_ok hcloser
      obtain ⟨rfl, rfl⟩ := pure_eq_ok h₃
      exact ⟨used ++ [closer], by simp, .list hword hopen hform hclose⟩

theorem exposing_sound : Sound exposing Clause := by
  intro tokens value rest h
  obtain ⟨seen, middle, hseen, h₁⟩ := bind_eq_ok h
  cases seen with
  | false =>
      obtain ⟨rfl, rfl⟩ := pure_eq_ok h₁
      obtain rfl := optional_eq_false hseen
      exact ⟨[], rfl, .nothing⟩
  | true =>
      obtain ⟨word, rfl, hword⟩ := optional_eq_true hseen
      obtain ⟨opener, middle', hopener, h₂⟩ := bind_eq_ok h₁
      obtain ⟨rfl, hopen⟩ := token_eq_ok hopener
      obtain ⟨used, rfl, hform⟩ := exposed_sound hword hopen h₂
      exact ⟨word :: opener :: used, rfl, hform⟩

/-- Tokens with `depth + 1` closing braces that have no partner among them, the last of them at the end. -/
def Closes : Nat → List Token → Prop
  | 0, tokens => ∃ inner closer, tokens = inner ++ [closer] ∧ Balanced inner ∧ closer.kind = .closeBrace
  | depth + 1, tokens =>
      ∃ inner closer rest, tokens = inner ++ closer :: rest ∧ Balanced inner ∧ closer.kind = .closeBrace ∧
        Closes depth rest

theorem Closes.other {depth : Nat} {token : Token} {rest : List Token} (hopen : token.kind ≠ .openBrace)
    (hclose : token.kind ≠ .closeBrace) (h : Closes depth rest) : Closes depth (token :: rest) := by
  cases depth with
  | zero =>
      obtain ⟨inner, closer, rfl, hinner, hcloser⟩ := h
      exact ⟨token :: inner, closer, rfl, .other hopen hclose hinner, hcloser⟩
  | succ depth =>
      obtain ⟨inner, closer, rest', rfl, hinner, hcloser, hrest⟩ := h
      exact ⟨token :: inner, closer, rest', rfl, .other hopen hclose hinner, hcloser, hrest⟩

theorem Closes.nested {depth : Nat} {opener : Token} {rest : List Token} (hopen : opener.kind = .openBrace)
    (h : Closes (depth + 1) rest) : Closes depth (opener :: rest) := by
  obtain ⟨inner, closer, rest', rfl, hinner, hcloser, hrest⟩ := h
  cases depth with
  | zero =>
      obtain ⟨inner', closer', rfl, hinner', hcloser'⟩ := hrest
      exact ⟨opener :: (inner ++ closer :: inner'), closer', by simp,
        .nested hopen hinner hcloser hinner', hcloser'⟩
  | succ depth =>
      obtain ⟨inner', closer', rest'', rfl, hinner', hcloser', hrest'⟩ := hrest
      exact ⟨opener :: (inner ++ closer :: inner'), closer', rest'', by simp,
        .nested hopen hinner hcloser hinner', hcloser', hrest'⟩

theorem closeBlock_sound (depth : Nat) : Sound (closeBlock depth) fun used _ => Closes depth used := by
  intro tokens value rest h
  fun_induction closeBlock depth tokens with
  | case1 depth => cases h
  | case2 depth token tokens hopen ih =>
      obtain ⟨used, rfl, hcloses⟩ := ih h
      exact ⟨token :: used, rfl, hcloses.nested hopen⟩
  | case3 token tokens hopen hclose =>
      cases h
      exact ⟨[token], rfl, [], token, rfl, .nil, hclose⟩
  | case4 token tokens hopen hclose depth ih =>
      obtain ⟨used, rfl, hcloses⟩ := ih h
      exact ⟨token :: used, rfl, [], token, used, rfl, .nil, hclose, hcloses⟩
  | case5 depth token tokens hopen hclose ih =>
      obtain ⟨used, rfl, hcloses⟩ := ih h
      exact ⟨token :: used, rfl, hcloses.other hopen hclose⟩

theorem whereBlock_sound : Sound whereBlock fun used _ => Block .effect used := by
  intro tokens value rest h
  obtain ⟨seen, middle, hseen, h₁⟩ := bind_eq_ok h
  cases seen with
  | false =>
      obtain ⟨rfl, rfl⟩ := pure_eq_ok h₁
      obtain rfl := optional_eq_false hseen
      exact ⟨[], rfl, .missing _⟩
  | true =>
      obtain ⟨word, rfl, hword⟩ := optional_eq_true hseen
      obtain ⟨opener, middle', hopener, h₂⟩ := bind_eq_ok h₁
      obtain ⟨rfl, hopen⟩ := token_eq_ok hopener
      obtain ⟨used, rfl, inner, closer, rfl, hinner, hclose⟩ := closeBlock_sound 0 h₂
      exact ⟨word :: opener :: (inner ++ [closer]), by simp, .braces hword hopen hinner hclose⟩

theorem header_sound (kind : ModuleKind) (position : Position) :
    Sound (header kind position) fun used decl => Body position (.header kind) used (.header decl) := by
  intro tokens value rest h
  obtain ⟨name, middle, hname, h₁⟩ := bind_eq_ok h
  obtain ⟨used, rfl, names, hpath, rfl⟩ := path_sound hname
  have hblock : ∃ block middle', middle = block ++ middle' ∧ Block kind block ∧
      (exposing >>= fun exposed => pure ⟨kind, ".".intercalate names, exposed, position⟩ : Rule ModuleHeader)
        middle' = .ok (value, rest) := by
    dsimp only at h₁
    split at h₁
    · next heffect =>
        obtain ⟨_, middle', hwhere, h₂⟩ := bind_eq_ok h₁
        obtain ⟨block, rfl, hform⟩ := whereBlock_sound hwhere
        exact ⟨block, middle', rfl, heffect ▸ hform, h₂⟩
    · exact ⟨[], middle, rfl, .missing _, h₁⟩
  obtain ⟨block, middle', rfl, hform, h₂⟩ := hblock
  obtain ⟨exposed, middle'', hexposed, h₃⟩ := bind_eq_ok h₂
  obtain ⟨used', rfl, hclause⟩ := exposing_sound hexposed
  obtain ⟨rfl, rfl⟩ := pure_eq_ok h₃
  exact ⟨used ++ (block ++ used'), by simp, .header hpath hform hclause⟩

theorem shortName_sound : Sound shortName ShortName := by
  intro tokens value rest h
  obtain ⟨seen, middle, hseen, h₁⟩ := bind_eq_ok h
  cases seen with
  | false =>
      obtain ⟨rfl, rfl⟩ := pure_eq_ok h₁
      obtain rfl := optional_eq_false hseen
      exact ⟨[], rfl, .missing⟩
  | true =>
      obtain ⟨word, rfl, hword⟩ := optional_eq_true hseen
      obtain ⟨name, middle', hname, h₂⟩ := bind_eq_ok h₁
      obtain ⟨first, rfl, hkind, rfl⟩ := upperName_eq_ok hname
      obtain ⟨rfl, rfl⟩ := pure_eq_ok h₂
      exact ⟨[word, first], rfl, .given hword hkind⟩

theorem imported_sound (position : Position) :
    Sound (imported position) fun used decl => Body position .imported used (.imported decl) := by
  intro tokens value rest h
  obtain ⟨name, middle, hname, h₁⟩ := bind_eq_ok h
  obtain ⟨used, rfl, names, hpath, rfl⟩ := path_sound hname
  obtain ⟨short, middle', hshort, h₂⟩ := bind_eq_ok h₁
  obtain ⟨used', rfl, hform⟩ := shortName_sound hshort
  obtain ⟨exposed, middle'', hexposed, h₃⟩ := bind_eq_ok h₂
  obtain ⟨used'', rfl, hclause⟩ := exposing_sound hexposed
  obtain ⟨rfl, rfl⟩ := pure_eq_ok h₃
  exact ⟨used ++ (used' ++ used''), by simp, .imported hpath hform hclause⟩

theorem declaredName_sound : Sound declaredName DeclaredName := by
  intro tokens value rest h
  obtain ⟨name, middle, hname, h₁⟩ := bind_eq_ok h
  obtain ⟨first, rfl, hkind, rfl⟩ := upperName_eq_ok hname
  obtain ⟨_, middle', hparameters, h₂⟩ := bind_eq_ok h₁
  obtain ⟨equals, middle'', hmark, h₃⟩ := bind_eq_ok h₂
  obtain ⟨rfl, hequals⟩ := token_eq_ok hmark
  obtain ⟨rfl, rfl⟩ := pure_eq_ok h₃
  have hdrop : middle.dropWhile (·.kind.isName) = equals :: middle'' :=
    (Prod.mk.inj (Except.ok.inj hparameters)).2
  refine ⟨first :: (middle.takeWhile (·.kind.isName) ++ [equals]), ?_, .intro hkind ?_ hequals⟩
  · rw [List.cons_append, List.append_assoc, List.cons_append, List.nil_append, ← hdrop,
      List.takeWhile_append_dropWhile]
  · intro parameter hmem
    exact List.all_eq_true.mp List.all_takeWhile parameter hmem

theorem union_sound (position : Position) :
    Sound (union position) fun used decl => Body position .union used (.union decl) := by
  intro tokens value rest h
  obtain ⟨name, middle, hname, h₁⟩ := bind_eq_ok h
  obtain ⟨used, rfl, hform⟩ := declaredName_sound hname
  obtain ⟨constructors, middle', hconstructors, h₂⟩ := bind_eq_ok h₁
  obtain ⟨used', rfl, hforms⟩ := separated_sound (constructor_sound type_sound) hconstructors
  obtain ⟨rfl, rfl⟩ := pure_eq_ok h₂
  exact ⟨used ++ used', by rw [List.append_assoc], .union hform hforms⟩

theorem aliased_sound (position : Position) :
    Sound (aliased position) fun used decl => Body position .aliased used (.aliased decl) := by
  intro tokens value rest h
  obtain ⟨name, middle, hname, h₁⟩ := bind_eq_ok h
  obtain ⟨used, rfl, hform⟩ := declaredName_sound hname
  obtain ⟨inner, middle', hinner, h₂⟩ := bind_eq_ok h₁
  obtain ⟨used', rfl, hforms⟩ := type_sound hinner
  obtain ⟨rfl, rfl⟩ := pure_eq_ok h₂
  exact ⟨used ++ used', by rw [List.append_assoc], .aliased hform hforms⟩

/-- The tokens that are taken after the opening words spell the declaration. -/
theorem declaration_sound (opening : Opening) (position : Position) :
    Sound (declaration opening position) (Body position opening) := by
  intro tokens value rest h
  cases opening with
  | header kind =>
      obtain ⟨decl, hdecl, rfl⟩ := map_eq_ok h
      exact header_sound kind position hdecl
  | imported =>
      obtain ⟨decl, hdecl, rfl⟩ := map_eq_ok h
      exact imported_sound position hdecl
  | union =>
      obtain ⟨decl, hdecl, rfl⟩ := map_eq_ok h
      exact union_sound position hdecl
  | aliased =>
      obtain ⟨decl, hdecl, rfl⟩ := map_eq_ok h
      exact aliased_sound position hdecl

end ElmNavigation.Rule
