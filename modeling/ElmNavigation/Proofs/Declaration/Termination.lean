import ElmNavigation.Proofs.Declaration.Extent
import ElmNavigation.Proofs.Declaration.Recursion

/-! Reading comes to the end of every text. A round skips line breaks and reads a construct, and whatever
becomes of the construct, the round ends after its first token; so rounds follow one another up to the
last token. Within a round the rules make progress too. -/

namespace ElmNavigation

/-- The place after the line breaks at a place in the tokens of a file. -/
def skipBreaks (tokens : List PlacedToken) (place : Nat) : Nat :=
  place + ((tokens.drop place).takeWhile (·.kind == .newline)).length

namespace Construct

/-- The place that is reached from the given one by rounds with these constructs, when line breaks are
skipped after the last. -/
def reached (tokens : List PlacedToken) : Nat → List Construct → Nat
  | place, [] => skipBreaks tokens place
  | _, construct :: constructs => reached tokens (construct.index + construct.taken) constructs

section

variable {tokens rest : List PlacedToken} {index : Nat} {token : PlacedToken}

theorem skipBreaks_of_ne (hrest : tokens.drop index = token :: rest) (hkind : token.kind ≠ .newline) :
    skipBreaks tokens index = index := by
  rw [skipBreaks, hrest, List.takeWhile_cons_of_neg (by simpa using hkind)]
  rfl

theorem drop_succ_of_drop (hrest : tokens.drop index = token :: rest) : tokens.drop (index + 1) = rest := by
  rw [← List.drop_drop, hrest]
  rfl

theorem skipBreaks_of_eq (hrest : tokens.drop index = token :: rest) (hkind : token.kind = .newline) :
    skipBreaks tokens index = skipBreaks tokens (index + 1) := by
  rw [skipBreaks, skipBreaks, hrest, drop_succ_of_drop hrest,
    List.takeWhile_cons_of_pos (by simpa using hkind), List.length_cons]
  omega

/-- A round begins after a line break as it does before it. -/
theorem reached_of_eq (hrest : tokens.drop index = token :: rest) (hkind : token.kind = .newline)
    (constructs : List Construct) :
    reached tokens index constructs = reached tokens (index + 1) constructs := by
  cases constructs with
  | nil => exact skipBreaks_of_eq hrest hkind
  | cons construct constructs => rfl

/-- Every round begins where the rounds before it lead. -/
theorem Reads.index_eq_reached {constructs : List Construct} (h : Reads index rest constructs)
    (hrest : tokens.drop index = rest) {before after : List Construct} {construct : Construct}
    (hsplit : constructs = before ++ construct :: after) : construct.index = reached tokens index before := by
  induction h generalizing before with
  | done index => cases before <;> cases hsplit
  | newline hkind _ ih =>
      rw [reached_of_eq hrest hkind]
      exact ih (drop_succ_of_drop hrest) hsplit
  | @construct index token rest constructs hkind _ ih =>
      cases before with
      | nil =>
          obtain ⟨rfl, _⟩ := List.cons.inj hsplit
          rw [read_index]
          exact (skipBreaks_of_ne hrest hkind).symm
      | cons first before =>
          obtain ⟨rfl, hothers⟩ := List.cons.inj hsplit
          rw [reached, read_index]
          exact ih (by rw [← List.drop_drop, hrest]) hothers

/-- The last round leads to the end. -/
theorem Reads.reached_eq_length {constructs : List Construct} (h : Reads index rest constructs)
    (hrest : tokens.drop index = rest) (hle : index ≤ tokens.length) :
    reached tokens index constructs = tokens.length := by
  induction h with
  | done index =>
      have hlength := List.drop_eq_nil_iff.mp hrest
      rw [reached, skipBreaks, hrest]
      exact Nat.le_antisymm hle hlength
  | newline hkind _ ih =>
      rw [reached_of_eq hrest hkind]
      refine ih (drop_succ_of_drop hrest) ?_
      have hlength := congrArg List.length hrest
      rw [List.length_drop, List.length_cons] at hlength
      omega
  | @construct index token rest constructs hkind _ ih =>
      rw [reached, read_index]
      refine ih (by rw [← List.drop_drop, hrest]) ?_
      have hlength := congrArg List.length hrest
      have htaken := read_taken_le token index (token :: rest)
      rw [List.length_drop] at hlength
      omega

end

end Construct

/-- **Every text is read to its end.** Each round begins where those before it and the line breaks after
them lead, and reads the construct there, which takes a token at least, be it accepted, passed over or
rejected; the last round leads to the end of the tokens. Inside a construct, too, no rule goes on without
taking tokens. -/
theorem parseWithDiagnostics_terminates (source : String) :
    (∃ constructs, constructs? source.toList = some constructs ∧
      parseWithDiagnostics source =
        (.parsed (constructs.filterMap Construct.statement?), constructs.filterMap Construct.diagnostic?) ∧
      (∀ before construct after, constructs = before ++ construct :: after →
        construct.index = Construct.reached (Token.placed source.toList) 0 before ∧
        construct = Construct.read construct.first
          ⟨construct.index, 0, (Token.placed source.toList).drop construct.index⟩ ∧
        construct.index < construct.index + construct.taken ∧
        construct.index + construct.taken ≤ (Token.placed source.toList).length) ∧
      Construct.reached (Token.placed source.toList) 0 constructs = (Token.placed source.toList).length) ∧
    Rule.Progress := by
  refine ⟨?_, Rule.progress⟩
  obtain ⟨constructs, hreads, hconstructs⟩ := exists_constructs source.toList
  refine ⟨constructs, hconstructs, parseWithDiagnostics_of_reads hreads, ?_,
    hreads.reached_eq_length rfl (Nat.zero_le _)⟩
  intro before construct after hsplit
  refine ⟨hreads.index_eq_reached rfl hsplit, ?_⟩
  have hmem : construct ∈ constructs := by
    rw [hsplit]
    exact List.mem_append_right before (.head after)
  obtain ⟨front, token, rest, htokens, hkind, rfl⟩ := hreads.exists_of_mem hmem
  have hpos := Construct.read_taken_pos hkind (0 + front.length) rest
  have hle := Construct.read_taken_le token (0 + front.length) (token :: rest)
  rw [Construct.read_index, Construct.read_first, htokens, Nat.zero_add, List.drop_left, List.length_append]
  rw [Nat.zero_add] at hpos hle
  exact ⟨rfl, Nat.lt_add_of_pos_right hpos, Nat.add_le_add_left hle _⟩

/-- A group that is never closed costs its line; reading goes on after it and skips the line break at the
end. -/
theorem parseWithDiagnostics_terminates_open_group :
    ∃ constructs, constructs? "\ntype A = (B\nimport C\n".toList = some constructs ∧
      constructs.map (fun construct => (construct.index, construct.taken)) = [(1, 6), (7, 2)] ∧
      Construct.reached (Token.placed "\ntype A = (B\nimport C\n".toList) 0 constructs = 10 := by
  obtain ⟨⟨constructs, hconstructs, _, _, hend⟩, _⟩ :=
    parseWithDiagnostics_terminates "\ntype A = (B\nimport C\n"
  have hplaces : (constructs? "\ntype A = (B\nimport C\n".toList).map
      (List.map fun construct => (construct.index, construct.taken)) = some [(1, 6), (7, 2)] := by
    decide +kernel
  rw [hconstructs, Option.map_some, Option.some.injEq] at hplaces
  exact ⟨constructs, hconstructs, hplaces, hend.trans (by decide +kernel)⟩

end ElmNavigation
