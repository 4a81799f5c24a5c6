import ElmNavigation.Proofs.Declaration.Layout

/-! Looking ahead agrees with stepping. `lookahead` counts brackets on its own while it passes tokens, and
`advance` keeps their number in the cursor. The token that is found `n` tokens ahead is the one that comes
next after `n` steps: one step takes one from the count of both, and leaves the same brackets open. -/

namespace ElmNavigation

namespace Layout

variable {layout : Option Layout}

/-- The number of the token that is found says where it stands. -/
theorem getElem?_of_seek {depth index n : Nat} {tokens : List PlacedToken} {found : Nat × PlacedToken}
    (h : seek layout depth index n tokens = some found) :
    index ≤ found.1 ∧ tokens[found.1 - index]? = some found.2 := by
  induction tokens generalizing depth index n with
  | nil => cases h
  | cons token rest ih =>
      have hlater : index + 1 ≤ found.1 ∧ rest[found.1 - (index + 1)]? = some found.2 →
          index ≤ found.1 ∧ (token :: rest)[found.1 - index]? = some found.2 := by
        rintro ⟨hle, hget⟩
        have hcount : found.1 - index = found.1 - (index + 1) + 1 := by omega
        exact ⟨by omega, by rw [hcount, List.getElem?_cons_succ, hget]⟩
      by_cases hkind : token.kind = .newline
      · rw [seek_newline hkind] at h
        exact hlater (ih h)
      by_cases hadmits : admits layout depth token = true
      · cases n with
        | zero =>
            rw [seek_zero hkind hadmits] at h
            cases h
            simp
        | succ n =>
            rw [seek_succ hkind hadmits] at h
            exact hlater (ih h)
      · rw [seek_of_not_admits hkind hadmits] at h
        cases h

/-- Looking one token further is looking from behind the next token, with the brackets that this one
leaves open. -/
theorem seek_eq_bind (layout : Option Layout) (depth index n : Nat) (tokens : List PlacedToken) :
    seek layout depth index (n + 1) tokens =
      (seek layout depth index 0 tokens).bind fun found =>
        seek layout (found.2.kind.nest depth) (found.1 + 1) n (tokens.drop (found.1 + 1 - index)) := by
  induction tokens generalizing index with
  | nil => rfl
  | cons token rest ih =>
      by_cases hkind : token.kind = .newline
      · rw [seek_newline hkind, seek_newline hkind, ih]
        cases hfound : seek layout depth (index + 1) 0 rest with
        | none => rfl
        | some found =>
            have hle := (getElem?_of_seek hfound).1
            have hcount : found.1 + 1 - index = found.1 + 1 - (index + 1) + 1 := by omega
            simp only [Option.bind_some, hcount, List.drop_succ_cons]
      by_cases hadmits : admits layout depth token = true
      · rw [seek_succ hkind hadmits, seek_zero hkind hadmits]
        simp
      · rw [seek_of_not_admits hkind hadmits, seek_of_not_admits hkind hadmits]
        rfl

end Layout

namespace Cursor

/-- The place after the next `n` tokens, if there are that many. -/
def advanceBy? (layout : Option Layout) : Nat → Cursor → Option Cursor
  | 0, cursor => some cursor
  | n + 1, cursor => (cursor.advance layout).bind (advanceBy? layout n)

theorem lookahead_succ (layout : Option Layout) (cursor : Cursor) (n : Nat) :
    cursor.lookahead layout (n + 1) = (cursor.advance layout).bind (·.lookahead layout n) := by
  unfold advance lookahead
  rw [Layout.seek_eq_bind, Option.bind_map]
  rfl

/-- A step moves along the tokens and changes none of them. -/
theorem ahead_of_advance {layout : Option Layout} {cursor next : Cursor}
    (h : cursor.advance layout = some next) :
    cursor.index ≤ next.index ∧ next.ahead = cursor.ahead.drop (next.index - cursor.index) := by
  unfold advance lookahead at h
  obtain ⟨found, hfound, rfl⟩ := Option.map_eq_some_iff.mp h
  have hle := (Layout.getElem?_of_seek hfound).1
  exact ⟨Nat.le_succ_of_le hle, rfl⟩

theorem ahead_of_advanceBy? {layout : Option Layout} {n : Nat} {cursor next : Cursor}
    (h : cursor.advanceBy? layout n = some next) :
    cursor.index ≤ next.index ∧ next.ahead = cursor.ahead.drop (next.index - cursor.index) := by
  induction n generalizing cursor with
  | zero =>
      cases h
      simp
  | succ n ih =>
      obtain ⟨middle, hmiddle, hnext⟩ := Option.bind_eq_some_iff.mp h
      obtain ⟨hle, hahead⟩ := ahead_of_advance hmiddle
      obtain ⟨hle', hahead'⟩ := ih hnext
      refine ⟨Nat.le_trans hle hle', ?_⟩
      rw [hahead', hahead, List.drop_drop]
      congr 1
      omega

theorem lookahead_eq_bind (layout : Option Layout) (cursor : Cursor) (n : Nat) :
    cursor.lookahead layout n = (cursor.advanceBy? layout n).bind (·.lookahead layout 0) := by
  induction n generalizing cursor with
  | zero => rfl
  | succ n ih =>
      calc
        cursor.lookahead layout (n + 1) = (cursor.advance layout).bind (·.lookahead layout n) :=
          lookahead_succ layout cursor n
        _ = (cursor.advance layout).bind fun next =>
          (next.advanceBy? layout n).bind (·.lookahead layout 0) := by
          congr 1
          funext next
          exact ih next
        _ = (cursor.advanceBy? layout (n + 1)).bind (·.lookahead layout 0) := by
          rw [advanceBy?, Option.bind_assoc]

/-- The token that is seen `n` tokens ahead is the one that comes next after `n` steps, and there is none
if one of the steps cannot be taken. So a decision about the kind of a token further on is a decision
about the token that will be next. The steps move along the tokens, where what is seen has the number that
is given for it. -/
theorem lookahead_agrees_with_advance (layout : Option Layout) (cursor : Cursor) (n : Nat) :
    cursor.lookahead layout n = (cursor.advanceBy? layout n).bind (·.lookahead layout 0) ∧
      (∀ kind, cursor.sees layout n kind = (cursor.advanceBy? layout n).any (·.sees layout 0 kind)) ∧
      (∀ next, cursor.advanceBy? layout n = some next →
        cursor.index ≤ next.index ∧ next.ahead = cursor.ahead.drop (next.index - cursor.index)) ∧
      ∀ index token, cursor.lookahead layout n = some (index, token) →
        cursor.index ≤ index ∧ cursor.ahead[index - cursor.index]? = some token := by
  have hlookahead := lookahead_eq_bind layout cursor n
  refine ⟨hlookahead, fun kind => ?_, fun next => ahead_of_advanceBy?,
    fun index token => Layout.getElem?_of_seek⟩
  unfold sees
  rw [hlookahead]
  cases cursor.advanceBy? layout n <;> rfl

/-- A closing bracket at the margin is seen four tokens ahead of the declaration whose bracket it closes,
and is the next token after four steps. -/
theorem lookahead_agrees_with_advance_closed_at_margin :
    ∃ next token, advanceBy? (some ⟨0, 0⟩) 4 ⟨0, 0, Token.placed "type T = (\n)".toList⟩ = some next ∧
      next.lookahead (some ⟨0, 0⟩) 0 = some (5, token) ∧ token.kind = .closeParen ∧
      token.position.column = 0 ∧
      (Token.placed "type T = (\n)".toList)[5]? = some token ∧
      next.ahead = (Token.placed "type T = (\n)".toList).drop next.index := by
  let cursor : Cursor := ⟨0, 0, Token.placed "type T = (\n)".toList⟩
  let token : PlacedToken := ⟨⟨.closeParen, [')'], 11⟩, ⟨1, 0, 11⟩⟩
  have hfound : cursor.lookahead (some ⟨0, 0⟩) 4 = some (5, token) := by decide +kernel
  obtain ⟨hlookahead, _, hahead, hnumber⟩ := lookahead_agrees_with_advance (some ⟨0, 0⟩) cursor 4
  rw [hfound] at hlookahead
  obtain ⟨next, hnext, hseen⟩ := Option.bind_eq_some_iff.mp hlookahead.symm
  exact ⟨next, token, hnext, hseen, rfl, rfl, (hnumber 5 token hfound).2, (hahead next hnext).2⟩

end Cursor

end ElmNavigation
