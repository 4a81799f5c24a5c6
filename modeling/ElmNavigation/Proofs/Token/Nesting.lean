import ElmNavigation.Proofs.Token.Scanner

/-! Where a block comment ends. The inside of a comment is given by a grammar: bytes at which no marker
starts, and comments of their own. A scan that counts open comments passes over such an inside at any
depth, so it stops behind the marker that closes the comment which it began in; and where it stops at a
marker, what it has passed is an inside. -/

namespace ElmNavigation.Token

open Text

/-- The marker `{-`, in bytes. -/
def opener : List UInt8 := [0x7b, 0x2d]

/-- The marker `-}`, in bytes. -/
def closer : List UInt8 := [0x2d, 0x7d]

/-- Bytes that are the inside of a comment when `after` follows them: whether a marker starts at a byte
also depends on what comes behind the inside. -/
inductive Inside : List UInt8 → List UInt8 → Prop where
  | nil (after : List UInt8) : Inside [] after
  | nested {inner outer after : List UInt8} (hinner : Inside inner (closer ++ outer ++ after))
      (houter : Inside outer after) : Inside (opener ++ inner ++ closer ++ outer) after
  | byte {first : UInt8} {inside after : List UInt8} (hopener : ¬ opener <+: first :: (inside ++ after))
      (hcloser : ¬ closer <+: first :: (inside ++ after)) (hinside : Inside inside after) :
      Inside (first :: inside) after

/-- The bytes behind an opening marker begin with `taken`, which is the inside of the comment and the
marker that closes it. -/
def ClosesComment (bytes taken : List UInt8) : Prop :=
  ∃ inside after, Inside inside (closer ++ after) ∧ taken = inside ++ closer ∧ bytes = taken ++ after

theorem blockCommentBytes_opener (depth : Nat) (rest : List UInt8) :
    blockCommentBytes depth (opener ++ rest) = 2 + blockCommentBytes (depth + 1) rest := rfl

theorem blockCommentBytes_closer (rest : List UInt8) : blockCommentBytes 0 (closer ++ rest) = 2 := rfl

theorem blockCommentBytes_closer_succ (depth : Nat) (rest : List UInt8) :
    blockCommentBytes (depth + 1) (closer ++ rest) = 2 + blockCommentBytes depth rest := rfl

/-- A byte at which no marker starts is passed over. -/
theorem blockCommentBytes_of_no_marker (depth : Nat) {first : UInt8} {rest : List UInt8}
    (hopener : ¬ opener <+: first :: rest) (hcloser : ¬ closer <+: first :: rest) :
    blockCommentBytes depth (first :: rest) = 1 + blockCommentBytes depth rest := by
  apply blockCommentBytes_other
  · rintro rest' rfl rfl
    exact hopener ⟨rest', rfl⟩
  · rintro rest' rfl rfl
    exact hcloser ⟨rest', rfl⟩

/-- The inside of a comment is passed over at any depth, and leaves the depth as it is. -/
theorem blockCommentBytes_inside {inside after : List UInt8} (h : Inside inside after) (depth : Nat) :
    blockCommentBytes depth (inside ++ after) = inside.length + blockCommentBytes depth after := by
  induction h generalizing depth with
  | nil after => simp
  | @nested inner outer after _ _ ihInner ihOuter =>
      calc
        blockCommentBytes depth (opener ++ inner ++ closer ++ outer ++ after)
        _ = 2 + blockCommentBytes (depth + 1) (inner ++ (closer ++ outer ++ after)) := by
          simp only [List.append_assoc, blockCommentBytes_opener]
        _ = 2 + (inner.length + (2 + blockCommentBytes depth (outer ++ after))) := by
          rw [ihInner, List.append_assoc closer, blockCommentBytes_closer_succ]
        _ = (opener ++ inner ++ closer ++ outer).length + blockCommentBytes depth after := by
          rw [ihOuter]
          simp [opener, closer]
          omega
  | byte hopener hcloser _ ih =>
      rw [List.cons_append, blockCommentBytes_of_no_marker depth hopener hcloser, ih, List.length_cons]
      omega

/-- What closes a comment and `depth` comments around it: an inside and a closing marker for each of them. -/
inductive ClosesAll : Nat → List UInt8 → List UInt8 → Prop where
  | last {inside after : List UInt8} (hinside : Inside inside (closer ++ after)) :
      ClosesAll 0 (inside ++ closer) after
  | next {depth : Nat} {inside taken after : List UInt8} (hinside : Inside inside (closer ++ taken ++ after))
      (htaken : ClosesAll depth taken after) : ClosesAll (depth + 1) (inside ++ closer ++ taken) after

/-- What can stand in front of the inside of a comment can stand in front of what closes it. -/
theorem ClosesAll.append_left {depth : Nat} {front taken after : List UInt8}
    (hfront : ∀ inside rest, taken ++ after = inside ++ rest → Inside inside rest →
      Inside (front ++ inside) rest)
    (h : ClosesAll depth taken after) : ClosesAll depth (front ++ taken) after := by
  cases h with
  | @last inside after hinside =>
      have hclosed := ClosesAll.last (hfront inside (closer ++ after) (by simp) hinside)
      simpa only [List.append_assoc] using hclosed
  | @next depth inside taken after hinside htaken =>
      have hclosed := ClosesAll.next (hfront inside (closer ++ taken ++ after) (by simp) hinside) htaken
      simpa only [List.append_assoc] using hclosed

/-- A scan closes the comments that are open, or goes on to the end. -/
theorem exists_closesAll (depth : Nat) (bytes : List UInt8) :
    (∃ taken after, bytes = taken ++ after ∧ ClosesAll depth taken after) ∨
      blockCommentBytes depth bytes = bytes.length := by
  fun_induction blockCommentBytes depth bytes with
  | case1 => exact .inr rfl
  | case2 depth rest ih =>
      rcases ih with ⟨_, after, hrest, hclosed⟩ | hlength
      · cases hclosed with
        | @next _ inner taken _ hinner htaken =>
            refine .inl ⟨opener ++ inner ++ closer ++ taken, after, by simp [hrest, opener], ?_⟩
            apply htaken.append_left
            intro inside tail htail hinside
            refine .nested ?_ hinside
            rwa [List.append_assoc, ← htail, ← List.append_assoc]
      · right
        simp only [List.length_cons, hlength]
        omega
  | case3 rest => exact .inl ⟨closer, rest, rfl, .last (.nil _)⟩
  | case4 rest depth ih =>
      rcases ih with ⟨taken, after, hrest, hclosed⟩ | hlength
      · exact .inl ⟨closer ++ taken, after, by simp [hrest, closer], .next (.nil _) hclosed⟩
      · right
        simp only [List.length_cons, hlength]
        omega
  | case5 depth first rest hopener hcloser ih =>
      rcases ih with ⟨taken, after, hrest, hclosed⟩ | hlength
      · refine .inl ⟨[first] ++ taken, after, by simp [hrest], ?_⟩
        apply hclosed.append_left
        intro inside tail htail hinside
        have hbytes : first :: (inside ++ tail) = first :: rest := by rw [hrest, htail]
        show Inside (first :: inside) tail
        refine .byte ?_ ?_ hinside <;> rw [hbytes]
        · rintro ⟨rest', hmarker⟩
          obtain ⟨rfl, rfl⟩ := List.cons.inj hmarker
          exact hopener rest' rfl rfl
        · rintro ⟨rest', hmarker⟩
          obtain ⟨rfl, rfl⟩ := List.cons.inj hmarker
          exact hcloser rest' rfl rfl
      · right
        simp only [List.length_cons, hlength]
        omega

theorem ClosesComment.length_eq {bytes taken : List UInt8} (h : ClosesComment bytes taken) :
    blockCommentBytes 0 bytes = taken.length := by
  obtain ⟨inside, after, hinside, rfl, rfl⟩ := h
  rw [List.append_assoc, blockCommentBytes_inside hinside, blockCommentBytes_closer]
  simp [closer]

/-- There is only one marker that closes a comment. -/
theorem ClosesComment.unique {bytes taken other : List UInt8} (h : ClosesComment bytes taken)
    (h' : ClosesComment bytes other) : other = taken := by
  have hlength : other.length = taken.length := by rw [← h.length_eq, ← h'.length_eq]
  obtain ⟨_, after, _, _, hbytes⟩ := h
  obtain ⟨_, after', _, _, hbytes'⟩ := h'
  exact (List.append_inj (hbytes'.symm.trans hbytes) hlength).1

/-- The scan with a count of all open comments, which fails if a closing marker takes one from a count of
zero. -/
def countedBlockComment : Nat → List UInt8 → Option Nat
  | _, [] => some 0
  | count, first :: rest =>
      match first, rest with
      | 0x7b, 0x2d :: rest => (countedBlockComment (count + 1) rest).map (2 + ·)
      | 0x2d, 0x7d :: rest =>
          if count = 0 then none
          else if count - 1 = 0 then some 2
          else (countedBlockComment (count - 1) rest).map (2 + ·)
      | _, rest => (countedBlockComment count rest).map (1 + ·)

/-- The count of open comments never falls below zero. -/
theorem countedBlockComment_succ (depth : Nat) (bytes : List UInt8) :
    countedBlockComment (depth + 1) bytes = some (blockCommentBytes depth bytes) := by
  fun_induction blockCommentBytes depth bytes with
  | case1 => rfl
  | case2 depth rest ih => simp [countedBlockComment, ih]
  | case3 rest => simp [countedBlockComment]
  | case4 rest depth ih => simp [countedBlockComment, ih]
  | case5 depth first rest hopener hcloser ih =>
      rw [countedBlockComment, ih]
      · rfl
      · exact hopener
      · exact hcloser

theorem octets_take (count : Nat) (text : List Char) :
    octets (text.take count) = (octets text).take (byteLength (text.take count)) := by
  have hsplit : octets text = octets (text.take count) ++ octets (text.drop count) := by
    rw [← octets_append, List.take_append_drop]
  rw [hsplit, ← length_octets, List.take_left]

/-- A block comment ends behind the marker that closes it, which is the only one to do so, or at the end
of the text if no marker closes it. It ends between two characters, and the count of open comments never
falls below zero. -/
theorem blockComment_ends_at_match (text : List Char) :
    ((∃ taken, ClosesComment (octets text) taken ∧
        (∀ other, ClosesComment (octets text) other → other = taken) ∧
        blockCommentBytes 0 (octets text) = taken.length) ∨
      ((∀ taken, ¬ ClosesComment (octets text) taken) ∧
        blockCommentBytes 0 (octets text) = (octets text).length)) ∧
      octets (text.take (blockCommentLength text)) = (octets text).take (blockCommentBytes 0 (octets text)) ∧
      countedBlockComment 1 (octets text) = some (blockCommentBytes 0 (octets text)) := by
  refine ⟨?_, ?_, countedBlockComment_succ 0 (octets text)⟩
  · by_cases hclosed : ∃ taken, ClosesComment (octets text) taken
    · obtain ⟨taken, htaken⟩ := hclosed
      exact .inl ⟨taken, htaken, fun other => htaken.unique, htaken.length_eq⟩
    · rw [not_exists] at hclosed
      refine .inr ⟨hclosed, ?_⟩
      rcases exists_closesAll 0 (octets text) with ⟨taken, after, hbytes, hall⟩ | hlength
      · cases hall with
        | last hinside => exact absurd ⟨_, after, hinside, rfl, hbytes⟩ (hclosed _)
      · exact hlength
  · rw [octets_take, blockCommentLength_eq, ← blockCommentBytes_octets]

/-- The brace of `{-}` closes nothing. -/
example : blockCommentLength ['{', '-', '}', '-', '}', '-', '}', 'x'] = 7 := by decide

end ElmNavigation.Token
