import ElmNavigation.Proofs.Token.Breaks
import ElmNavigation.Proofs.Token.Kind

/-! Texts that are written token by token. `Spells text form` says that the tokens of a text have a form,
wherever the text stands, as long as what follows begins neither like a word nor like an operator. Blanks,
brackets, words and operators spell single tokens, and texts can be put together as long as the second
keeps apart from the first; so a printed text is shown to have the tokens of a sentence along the way in
which it is printed. -/

namespace ElmNavigation.Token

open Text

/-- Whether a text begins neither like a word nor like an operator. -/
def Apart (text : List Char) : Prop :=
  ∀ c ∈ text.head?, isWordChar c = false ∧ isSymbol c = false

theorem Apart.nil : Apart [] := by
  rintro _ ⟨⟩

theorem Apart.cons {c : Char} (h : isWordChar c = false ∧ isSymbol c = false) (text : List Char) :
    Apart (c :: text) := by
  rintro _ ⟨⟩
  exact h

theorem Apart.blank (text : List Char) : Apart (' ' :: text) :=
  .cons ⟨rfl, rfl⟩ text

theorem Apart.mark {c : Char} {kind : Kind} (hc : Kind.ofPunctuation? c = some kind) (text : List Char) :
    Apart (c :: text) := by
  rw [Kind.ofPunctuation?.eq_def] at hc
  split at hc <;> first | exact .cons ⟨rfl, rfl⟩ text | cases hc

theorem Apart.append {first second : List Char} (h : Apart first) (h' : Apart second) :
    Apart (first ++ second) := by
  cases first with
  | nil => exact h'
  | cons c first => exact .cons (h c rfl) _

/-- The text stands on one line, and its tokens have the form wherever it does. -/
structure Spells (text : List Char) (form : List Token → Prop) : Prop where
  line : '\n' ∉ text
  breaks (after : List Char) (hafter : Apart after) : Breaks text after
  form (bytes : Nat) : form ((tokens text).map (Token.move bytes))

/-- One token with the given property. -/
def Single (property : Token → Prop) (tokens : List Token) : Prop :=
  ∃ token, tokens = [token] ∧ property token

/-- Tokens of the first form, then tokens of the second. -/
def Then (form form' : List Token → Prop) (tokens : List Token) : Prop :=
  ∃ first second, tokens = first ++ second ∧ form first ∧ form' second

/-! ### Single tokens -/

theorem breaks_of_munch {c : Char} {kind : Option Kind} {taken after : List Char} (hc : isBlank c = false)
    (h : munch c (taken ++ after) = ⟨kind, taken.length⟩) : Breaks (c :: taken) after := by
  have hbreaks := @Breaks.piece c kind taken [] after hc h (.start after)
  rwa [List.append_nil] at hbreaks

theorem Breaks.single {c : Char} {kind : Option Kind} {before after : List Char} (hc : isBlank c = false)
    (h : munch c (before ++ after) = ⟨kind, 0⟩) (rest : Breaks before after) : Breaks (c :: before) after :=
  @Breaks.piece c kind [] before after hc h rest

theorem tokens_of_munch {c : Char} {kind : Kind} {taken : List Char} (hc : isBlank c = false)
    (h : munch c taken = ⟨some kind, taken.length⟩) (hkind : kind ≠ .comment) :
    tokens (c :: taken) = [⟨kind, c :: taken, 0⟩] := by
  have hpiece : munch c (taken ++ []) = ⟨some kind, taken.length⟩ := by rwa [List.append_nil]
  have hcut := cut_piece hc hpiece 0
  rw [List.append_nil] at hcut
  rw [tokens, lexemes, hcut, cut.eq_def, List.filterMap_cons, ofLexeme?]
  cases kind <;> first | rfl | exact absurd rfl hkind

/-- A piece that is read in the same way before any text that keeps apart. -/
theorem Spells.of_munch {c : Char} {kind : Kind} {taken : List Char} {text : String}
    (htext : text.toList = c :: taken) (hline : '\n' ∉ c :: taken) (hc : isBlank c = false)
    (hkind : kind ≠ .comment)
    (h : ∀ after, Apart after → munch c (taken ++ after) = ⟨some kind, taken.length⟩) :
    Spells text.toList (Single fun token => token.kind = kind ∧ token.text = text) where
  line := by rwa [htext]
  breaks := fun after hafter => by
    rw [htext]
    exact breaks_of_munch hc (h after hafter)
  form := fun bytes => by
    have hmunch := h [] Apart.nil
    rw [List.append_nil] at hmunch
    rw [htext, tokens_of_munch hc hmunch hkind]
    refine ⟨_, rfl, rfl, ?_⟩
    show String.ofList (c :: taken) = text
    rw [← htext, String.ofList_toList]

theorem munch_word {c : Char} {rest after : List Char} (hc : c.isAlphanum = true)
    (hrest : ∀ d ∈ rest, isWordChar d = true) (hafter : ∀ d ∈ after.head?, isWordChar d = false) :
    munch c (rest ++ after) =
      ⟨some (if c.isUpper then .upperName else if c.isDigit then .number
        else Kind.ofWord (String.ofList (c :: rest))), rest.length⟩ := by
  rw [munch, if_pos hc, word, takeWhile_append_stop hrest hafter]

theorem isAlphanum_of_isUpper {c : Char} (h : c.isUpper = true) : c.isAlphanum = true := by
  show ((c.isUpper || c.isLower) || c.isDigit) = true
  rw [h, Bool.true_or, Bool.true_or]

theorem isAlphanum_of_isLower {c : Char} (h : c.isLower = true) : c.isAlphanum = true := by
  show ((c.isUpper || c.isLower) || c.isDigit) = true
  rw [h, Bool.or_true, Bool.true_or]

/-- A small letter is neither a capital letter nor a digit. -/
theorem isLower_cases {c : Char} (h : c.isLower = true) : c.isUpper = false ∧ c.isDigit = false := by
  change (c.val ≥ 'a'.val && c.val ≤ 'z'.val) = true at h
  show decide (c.val ≥ 'A'.val ∧ c.val ≤ 'Z'.val) = false ∧ c.isDigit = false
  simp only [Bool.and_eq_true, decide_eq_true_eq, ge_iff_le, UInt32.le_iff_toNat_le] at h
  simp only [← Bool.not_eq_true, Char.isDigit, Bool.and_eq_true, decide_eq_true_eq, ge_iff_le,
    UInt32.le_iff_toNat_le]
  have ha : 'a'.val.toNat = 97 := rfl
  have hZ : 'Z'.val.toNat = 90 := rfl
  have h9 : '9'.val.toNat = 57 := rfl
  omega

/-- A class of characters without the four blanks. -/
theorem isBlank_eq_false {p : Char → Bool} {c : Char}
    (hp : [' ', '\t', '\r', '\x0c'].all (fun d => !p d) = true) (h : p c = true) : isBlank c = false := by
  rw [← Bool.not_eq_true]
  intro hblank
  have hmem : c ∈ [' ', '\t', '\r', '\x0c'] := by
    simpa [isBlank, or_assoc] using hblank
  have hnone := List.all_eq_true.mp hp c hmem
  rw [h] at hnone
  cases hnone

theorem isBlank_of_isAlphanum {c : Char} (h : c.isAlphanum = true) : isBlank c = false :=
  isBlank_eq_false (by decide) h

theorem exists_word_kind (c : Char) (text : List Char) :
    ∃ kind, (word c text).kind = some kind ∧ kind ≠ .comment ∧
      (c.isLower = true → ∃ word, kind = Kind.ofWord word) := by
  refine ⟨_, rfl, ?_, fun hlower => ?_⟩
  · split
    next => decide
    next =>
      split
      next => decide
      next => exact Kind.ofWord_ne (by decide)
  · obtain ⟨hupper, hdigit⟩ := isLower_cases hlower
    rw [hupper, hdigit]
    exact ⟨_, rfl⟩

/-- A text that begins with a letter or a digit begins with a token. -/
theorem exists_tokens_eq_cons {c : Char} (hc : c.isAlphanum = true) (text : List Char) :
    ∃ first rest, tokens (c :: text) = first :: rest ∧ first.start = 0 ∧
      (c.isLower = true → ∃ word, first.kind = Kind.ofWord word) := by
  obtain ⟨kind, hkind, hcomment, hlower⟩ := exists_word_kind c text
  have hmunch : munch c text = word c text := by rw [munch, if_pos hc]
  have hlexeme : ∀ chars, ofLexeme? ⟨some kind, chars, 0⟩ = some ⟨kind, chars, 0⟩ := by
    intro chars
    cases kind <;> first | rfl | exact absurd rfl hcomment
  rw [tokens, lexemes, cut.eq_def]
  dsimp only
  rw [isBlank_of_isAlphanum hc, if_neg (by decide), hmunch, hkind, List.filterMap_cons, hlexeme]
  exact ⟨_, _, rfl, rfl, hlower⟩

theorem isSymbol_of_isAlphanum {c : Char} (h : c.isAlphanum = true) : isSymbol c = false := by
  have hall : "+-*/<>=|&^!?~%@#$\\:.".toList.all (fun c => !c.isAlphanum) = true := by decide
  rw [← Bool.not_eq_true]
  intro hsymbol
  have hnone := List.all_eq_true.mp hall c (List.contains_iff_mem.mp hsymbol)
  rw [h] at hnone
  cases hnone

theorem munch_symbols {c : Char} {rest after : List Char} (hc : isSymbol c = true)
    (hrest : ∀ d ∈ rest, isSymbol d = true) (hcomment : ¬ ['-', '-'] <+: c :: rest)
    (hafter : ∀ d ∈ after.head?, isSymbol d = false) :
    munch c (rest ++ after) = ⟨some (Kind.ofSymbols (String.ofList (c :: rest))), rest.length⟩ := by
  have hword : c.isAlphanum = false := by
    rw [← Bool.not_eq_true]
    intro hword
    rw [isSymbol_of_isAlphanum hword] at hc
    cases hc
  have hplain : ¬ (c = '-' ∧ (rest ++ after).head? = some '-') := by
    rintro ⟨rfl, hhead⟩
    cases rest with
    | nil =>
        have hdash := hafter '-' hhead
        cases hdash
    | cons d rest =>
        cases hhead
        exact hcomment ⟨rest, rfl⟩
  rw [munch, hword, if_neg (by decide), if_pos hc, symbols, if_neg hplain, takeWhile_append_stop hrest hafter]

theorem munch_mark {c : Char} {kind : Kind} {text : List Char} (hc : Kind.ofPunctuation? c = some kind)
    (htext : kind = .openBrace → text.head? ≠ some '-') : munch c text = ⟨some kind, 0⟩ := by
  have hother : punctuation kind text = ⟨some kind, 0⟩ := by
    refine punctuation_other fun body hbrace hbody => htext hbrace ?_
    rw [hbody]
    rfl
  have hclass : c.isAlphanum = false ∧ isSymbol c = false := by
    rw [Kind.ofPunctuation?.eq_def] at hc
    split at hc <;> first | exact ⟨rfl, rfl⟩ | cases hc
  rw [munch, hclass.1, hclass.2, hc]
  exact hother

theorem isBlank_of_isSymbol {c : Char} (h : isSymbol c = true) : isBlank c = false :=
  isBlank_eq_false (by decide) h

theorem notMem_of_forall {p : Char → Bool} {c : Char} {text : List Char} (h : ∀ d ∈ text, p d = true)
    (hc : p c = false) : c ∉ text := by
  intro hmem
  rw [h c hmem] at hc
  cases hc

theorem forall_isWordChar {c : Char} {rest : List Char} (hc : c.isAlphanum = true)
    (hrest : ∀ d ∈ rest, isWordChar d = true) : ∀ d ∈ c :: rest, isWordChar d = true :=
  List.forall_mem_cons.mpr ⟨by rw [isWordChar, hc, Bool.true_or], hrest⟩

theorem Spells.lower {text : String} {c : Char} {rest : List Char} (htext : text.toList = c :: rest)
    (hc : c.isLower = true) (hrest : ∀ d ∈ rest, isWordChar d = true) (hkind : Kind.ofWord text ≠ .comment) :
    Spells text.toList (Single fun token => token.kind = Kind.ofWord text ∧ token.text = text) := by
  have hword := isAlphanum_of_isLower hc
  obtain ⟨hupper, hdigit⟩ := isLower_cases hc
  have hline : '\n' ∉ c :: rest := notMem_of_forall (forall_isWordChar hword hrest) rfl
  refine .of_munch htext hline (isBlank_of_isAlphanum hword) hkind fun after hafter => ?_
  rw [munch_word hword hrest fun d hd => (hafter d hd).1, hupper, hdigit, ← htext, String.ofList_toList]
  rfl

theorem Spells.symbols {text : String} {c : Char} {rest : List Char} (htext : text.toList = c :: rest)
    (hall : ∀ d ∈ c :: rest, isSymbol d = true) (hcomment : ¬ ['-', '-'] <+: c :: rest)
    (hkind : Kind.ofSymbols text ≠ .comment) :
    Spells text.toList (Single fun token => token.kind = Kind.ofSymbols text ∧ token.text = text) := by
  have hc := hall c (.head _)
  have hline : '\n' ∉ c :: rest := notMem_of_forall hall rfl
  refine .of_munch htext hline (isBlank_of_isSymbol hc) hkind fun after hafter => ?_
  rw [munch_symbols hc (fun d hd => hall d (.tail _ hd)) hcomment fun d hd => (hafter d hd).2, ← htext,
    String.ofList_toList]

/-! ### Putting texts together -/

theorem Spells.imp {text : List Char} {form form' : List Token → Prop} (h : Spells text form)
    (himp : ∀ tokens, form tokens → form' tokens) : Spells text form' :=
  ⟨h.line, h.breaks, fun bytes => himp _ (h.form bytes)⟩

theorem Spells.nil {form : List Token → Prop} (h : form []) : Spells [] form :=
  ⟨List.not_mem_nil, fun after _ => .start after, fun _ => h⟩

theorem map_move_move (first second : Nat) (tokens : List Token) :
    (tokens.map (Token.move first)).map (Token.move second) = tokens.map (Token.move (first + second)) := by
  rw [List.map_map]
  refine List.map_congr_left fun token _ => ?_
  simp only [Function.comp_apply, move, Nat.add_assoc]

theorem Spells.append {first second : List Char} {form form' : List Token → Prop} (h : Spells first form)
    (h' : Spells second form') (hapart : Apart second) : Spells (first ++ second) (Then form form') where
  line := fun hmem => (List.mem_append.mp hmem).elim h.line h'.line
  breaks :=
    fun after hafter => (h.breaks (second ++ after) (hapart.append hafter)).trans (h'.breaks after hafter)
  form := fun bytes => by
    rw [(h.breaks second hapart).tokens_append, List.map_append, map_move_move]
    exact ⟨_, _, rfl, h.form bytes, h'.form _⟩

theorem Spells.blank {text : List Char} {form : List Token → Prop} (h : Spells text form) :
    Spells (' ' :: text) form where
  line := List.not_mem_cons_of_ne_of_not_mem (by decide) h.line
  breaks := fun after hafter => .blank rfl (h.breaks after hafter)
  form := fun bytes => by
    have hbreaks : Breaks [' '] text := .blank rfl (.start text)
    have htokens : tokens (' ' :: text) = (tokens text).map (Token.move (byteLength [' '])) :=
      hbreaks.tokens_append
    rw [htokens, map_move_move]
    exact h.form _

/-- A bracket or a comma in front of a text. -/
theorem Spells.mark {c : Char} {kind : Kind} {text : List Char} {form : List Token → Prop}
    (hc : Kind.ofPunctuation? c = some kind) (hdash : kind = .openBrace → text.head? ≠ some '-')
    (h : Spells text form) : Spells (c :: text) (Then (Single (·.kind = kind)) form) := by
  have hmunch : ∀ after, Apart after → munch c (text ++ after) = ⟨some kind, 0⟩ := by
    intro after hafter
    refine munch_mark hc fun hbrace hhead => ?_
    cases text with
    | nil =>
        have hsymbol := (hafter '-' hhead).2
        cases hsymbol
    | cons d text => exact hdash hbrace hhead
  have hblank : isBlank c = false := by
    rw [Kind.ofPunctuation?.eq_def] at hc
    split at hc <;> first | rfl | cases hc
  have hall : ∀ after, Apart after → Breaks (c :: text) after := by
    intro after hafter
    exact Breaks.single hblank (hmunch after hafter) (h.breaks after hafter)
  have hbreaks : Breaks [c] text := by
    have hone := hmunch [] Apart.nil
    rw [List.append_nil] at hone
    exact Breaks.single hblank hone (.start text)
  have hcomment : kind ≠ .comment := by
    rintro rfl
    rw [Kind.ofPunctuation?.eq_def] at hc
    split at hc <;> cases hc
  have hsingle : tokens [c] = [⟨kind, [c], 0⟩] := by
    have hone : munch c [] = ⟨some kind, ([] : List Char).length⟩ := munch_mark hc fun _ => nofun
    exact tokens_of_munch hblank hone hcomment
  have htokens : tokens (c :: text) = tokens [c] ++ (tokens text).map (Token.move (byteLength [c])) :=
    hbreaks.tokens_append
  have hline : '\n' ≠ c := by
    rintro rfl
    cases hc
  refine ⟨List.not_mem_cons_of_ne_of_not_mem hline h.line, hall, fun bytes => ?_⟩
  rw [htokens, hsingle, List.map_append, map_move_move]
  exact ⟨_, _, rfl, ⟨_, rfl, rfl⟩, h.form _⟩

theorem Spells.only {c : Char} {kind : Kind} (hc : Kind.ofPunctuation? c = some kind) :
    Spells [c] (Single (·.kind = kind)) := by
  have hempty : Spells [] (· = []) := .nil rfl
  refine (hempty.mark hc (by simp)).imp ?_
  rintro _ ⟨tokens, _, rfl, hsingle, rfl⟩
  rwa [List.append_nil]

theorem Spells.closeParen : Spells [')'] (Single (·.kind = .closeParen)) :=
  .only rfl

theorem Spells.closeBrace : Spells ['}'] (Single (·.kind = .closeBrace)) :=
  .only rfl

theorem Spells.openParen {text : List Char} {form : List Token → Prop} (h : Spells text form) :
    Spells ('(' :: text) (Then (Single (·.kind = .openParen)) form) :=
  h.mark rfl nofun

theorem Spells.openBrace {text : List Char} {form : List Token → Prop} (h : Spells text form)
    (hdash : text.head? ≠ some '-') : Spells ('{' :: text) (Then (Single (·.kind = .openBrace)) form) :=
  h.mark rfl fun _ => hdash

theorem Spells.comma {text : List Char} {form : List Token → Prop} (h : Spells text form) :
    Spells (',' :: text) (Then (Single (·.kind = .comma)) form) :=
  h.mark rfl nofun

end ElmNavigation.Token
