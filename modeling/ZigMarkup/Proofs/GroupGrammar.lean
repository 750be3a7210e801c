import ZigMarkup.Proofs.Sites

/-!
The grammar of bracket groups. A group is an opener, any number of items and the closer that
matches; an item is a token that may hide brackets, a byte that is no bracket, or a group. Main
statement: the reader, which keeps a stack of the closers to come, reads exactly the groups of
this grammar. Where the grammar has no group, reading stops at the first closer that does not
match or at a string that is broken off, and blames the opener if the source ends first.
-/
namespace ZigMarkup

open ScanM

/-- A comment, string, character literal or line of a multiline string between two offsets. -/
def TokenBetween (source : Bytes) (n m : Nat) : Prop :=
  trivia (cursorAt source n) = .ok true (cursorAt source m)

/-- A string that the end of its line breaks off. -/
def BrokenBetween (source : Bytes) (n m : Nat) : Prop :=
  trivia (cursorAt source n) = .error ⟨⟨n, m⟩, .unterminatedString⟩ (cursorAt source m)

/-- A byte that is no bracket and at which no token begins. -/
structure PlainAt (source : Bytes) (n : Nat) (b : UInt8) : Prop where
  byte : source[n]? = some b
  noOpener : closerOf? b = none
  noCloser : isCloser b = false
  noToken : trivia (cursorAt source n) = .ok false (cursorAt source n)

/-- An opening bracket and the closer that matches it. -/
def OpenerAt (source : Bytes) (n : Nat) (closer : UInt8) : Prop :=
  ∃ opener, source[n]? = some opener ∧ closerOf? opener = some closer

mutual
/-- One bracket group, from its opener to behind its closer. -/
inductive GroupBetween (source : Bytes) : Nat → Nat → Prop
  | intro {start stop : Nat} {closer : UInt8} (hopener : OpenerAt source start closer)
      (hitems : ItemsBetween source (start + 1) stop) (hcloser : source[stop]? = some closer) :
      GroupBetween source start (stop + 1)

/-- What may stand between two brackets. -/
inductive ItemsBetween (source : Bytes) : Nat → Nat → Prop
  | nil (n : Nat) : ItemsBetween source n n
  | token {n k m : Nat} (htoken : TokenBetween source n k) (hitems : ItemsBetween source k m) :
      ItemsBetween source n m
  | byte {n m : Nat} {b : UInt8} (hbyte : PlainAt source n b)
      (hitems : ItemsBetween source (n + 1) m) : ItemsBetween source n m
  | group {n k m : Nat} (hgroup : GroupBetween source n k) (hitems : ItemsBetween source k m) :
      ItemsBetween source n m
end

/-- Reading from the opener of a group comes to an offset inside of it. All closers so far have
matched, and `closer` is the one to come next. -/
inductive OpenAt (source : Bytes) : Nat → Nat → UInt8 → Prop
  | here {start n : Nat} {closer : UInt8} (hopener : OpenerAt source start closer)
      (hitems : ItemsBetween source (start + 1) n) : OpenAt source start n closer
  | inner {start k n : Nat} {outer closer : UInt8} (hopener : OpenerAt source start outer)
      (hitems : ItemsBetween source (start + 1) k) (hinner : OpenAt source k n closer) :
      OpenAt source start n closer

/-- Why no group begins at an offset: the error, and where reading stops. -/
inductive NoGroup (source : Bytes) (start : Nat) : ScanError → Nat → Prop
  | mismatch {n : Nat} {closer b : UInt8} (hopen : OpenAt source start n closer)
      (hbyte : source[n]? = some b) (hb : isCloser b = true) (hne : b ≠ closer) :
      NoGroup source start ⟨⟨n, n + 1⟩, .unexpected (Char.ofNat b.toNat)⟩ n
  | unclosed {closer opener : UInt8} (hopen : OpenAt source start source.length closer)
      (hopener : source[start]? = some opener) :
      NoGroup source start ⟨⟨start, start + 1⟩, .unclosed (byteText opener)⟩ source.length
  | broken {n m : Nat} {closer : UInt8} (hopen : OpenAt source start n closer)
      (hbroken : BrokenBetween source n m) :
      NoGroup source start ⟨⟨n, m⟩, .unterminatedString⟩ m

/-! ## Tokens -/

variable {source rest : Bytes} {start n m k : Nat} {b closer : UInt8} {stack : List UInt8}

theorem drop_of_getElem? (h : source[n]? = some b) : ∃ rest, source.drop n = b :: rest := by
  refine List.head?_eq_some_iff.mp ?_
  rw [List.head?_drop, h]

theorem cursorAt_inj (h : cursorAt source n = cursorAt source m) : n = m :=
  congrArg Cursor.pos h

/-- The token at an offset, by what begins there. -/
theorem trivia_cursorAt (h : source.drop n = b :: rest) : trivia (cursorAt source n) =
    match lexeme b rest with
    | .trivia length => .ok true (cursorAt source (n + length))
    | .broken length =>
      .error ⟨⟨n, n + length⟩, .unterminatedString⟩ (cursorAt source (n + length))
    | .plain => .ok false (cursorAt source n) := by
  have hrest : (cursorAt source n).rest = b :: rest := h
  unfold trivia
  simp only [hrest]
  cases lexeme b rest with
  | trivia length => simp only [cursorAt_skip]
  | broken length =>
    simp only [cursorAt_skip]
    rfl
  | plain => rfl

theorem trivia_within {length : Nat} (h : lexeme b rest = .trivia length) :
    length ≤ rest.length + 1 := by
  rcases trivia_cases h with ⟨_, _, rfl⟩ | ⟨_, _, rfl⟩ | ⟨_, _, rfl⟩
  · exact (List.takeWhile_sublist _).length_le
  · have hwithin := quotedTail_within b rest
    omega
  · omega

theorem exists_drop_of_trivia (h : trivia (cursorAt source n) ≠ .ok false (cursorAt source n)) :
    ∃ b rest, source.drop n = b :: rest := by
  cases hdrop : source.drop n with
  | nil =>
    have hrest : (cursorAt source n).rest = [] := hdrop
    exact absurd (by unfold trivia; simp only [hrest]) h
  | cons b rest => exact ⟨b, rest, rfl⟩

theorem TokenBetween.exists_lexeme (h : TokenBetween source n m) :
    ∃ b rest length, source.drop n = b :: rest ∧ lexeme b rest = .trivia length ∧
      m = n + length := by
  unfold TokenBetween at h
  obtain ⟨b, rest, hdrop⟩ := exists_drop_of_trivia (by rw [h]; intro hread; cases hread)
  rw [trivia_cursorAt hdrop] at h
  cases hlexeme : lexeme b rest with
  | trivia length =>
    rw [hlexeme] at h
    injection h with _ hcursor
    exact ⟨b, rest, length, hdrop, hlexeme, (cursorAt_inj hcursor).symm⟩
  | broken length => rw [hlexeme] at h; cases h
  | plain => rw [hlexeme] at h; cases h

theorem BrokenBetween.exists_lexeme (h : BrokenBetween source n m) :
    ∃ b rest length, source.drop n = b :: rest ∧ lexeme b rest = .broken length ∧
      m = n + length := by
  unfold BrokenBetween at h
  obtain ⟨b, rest, hdrop⟩ := exists_drop_of_trivia (by rw [h]; intro hread; cases hread)
  rw [trivia_cursorAt hdrop] at h
  cases hlexeme : lexeme b rest with
  | broken length =>
    rw [hlexeme] at h
    injection h with _ hcursor
    exact ⟨b, rest, length, hdrop, hlexeme, (cursorAt_inj hcursor).symm⟩
  | trivia length => rw [hlexeme] at h; cases h
  | plain => rw [hlexeme] at h; cases h

theorem PlainAt.exists_drop (h : PlainAt source n b) :
    ∃ rest, source.drop n = b :: rest ∧ lexeme b rest = .plain := by
  obtain ⟨rest, hdrop⟩ := drop_of_getElem? h.byte
  have htoken := h.noToken
  rw [trivia_cursorAt hdrop] at htoken
  cases hlexeme : lexeme b rest with
  | trivia length => rw [hlexeme] at htoken; cases htoken
  | broken length => rw [hlexeme] at htoken; cases htoken
  | plain => exact ⟨rest, hdrop, hlexeme⟩

theorem OpenerAt.exists_byte (h : OpenerAt source n closer) : ∃ opener, source[n]? = some opener :=
  h.imp fun _ => And.left

theorem OpenerAt.exists_drop (h : OpenerAt source n closer) : ∃ opener rest,
    source.drop n = opener :: rest ∧ closerOf? opener = some closer ∧
      lexeme opener rest = .plain := by
  obtain ⟨opener, hbyte, hpair⟩ := h
  obtain ⟨rest, hdrop⟩ := drop_of_getElem? hbyte
  refine ⟨opener, rest, hdrop, hpair, lexeme_of_not_opens ?_ rest⟩
  exact opensToken_of_opener (by rw [hpair]; rfl)

/-! ## Searching with a stack -/

/-- The search for the end of the group at `start`, come to an offset. -/
def searchAt (source : Bytes) (start : Nat) (stack : List UInt8) (n : Nat) : Except Failure Nat :=
  let opener := (source.drop start).headD (ascii '(')
  walkFrom groupVisit (fun _ reached => .error ⟨⟨0, 1⟩, .unclosed (byteText opener), reached⟩) 0
    stack (n - start) (source.drop n)

theorem groupLength_drop (source : Bytes) (start : Nat) :
    groupLength (source.drop start) = searchAt source start [] start := by
  unfold groupLength walk searchAt
  rw [Nat.sub_self]

/-- One visit that goes on. -/
theorem searchAt_go {next : List UInt8} (hdrop : source.drop n = b :: rest) (hstart : start ≤ n)
    (hvisit : groupVisit stack (n - start) b rest = .go k next) (hpos : 0 < k)
    (hk : k ≤ rest.length + 1) :
    searchAt source start stack n = searchAt source start next (n + k) := by
  have hskip := fun finish => walkFrom_skip groupVisit finish next (rest.take (k - 1))
    (rest.drop (k - 1)) (n - start + 1)
  have hlength : (rest.take (k - 1)).length = k - 1 := by
    rw [List.length_take]
    omega
  have hbehind : source.drop (n + k) = rest.drop (k - 1) := by
    obtain ⟨k, rfl⟩ := Nat.exists_eq_succ_of_ne_zero (Nat.ne_of_gt hpos)
    rw [← List.drop_drop, hdrop]
    rfl
  have hoffset : n - start + 1 + (k - 1) = n + k - start := by omega
  simp only [hlength, List.take_append_drop, hoffset] at hskip
  unfold searchAt
  rw [hdrop, walkFrom, hvisit, hbehind]
  exact hskip _

theorem searchAt_stop {result : Except Failure Nat} (hdrop : source.drop n = b :: rest)
    (hvisit : groupVisit stack (n - start) b rest = .stop result) :
    searchAt source start stack n = result := by
  unfold searchAt
  rw [hdrop, walkFrom, hvisit]

theorem TokenBetween.search (h : TokenBetween source n m) (hstart : start ≤ n)
    (stack : List UInt8) :
    n < m ∧ searchAt source start stack n = searchAt source start stack m := by
  obtain ⟨b, rest, length, hdrop, hlexeme, rfl⟩ := h.exists_lexeme
  have hpos := trivia_pos hlexeme
  refine ⟨by omega, searchAt_go hdrop hstart ?_ hpos (trivia_within hlexeme)⟩
  simp only [groupVisit, hlexeme]

theorem PlainAt.search (h : PlainAt source n b) (hstart : start ≤ n) :
    searchAt source start stack n = searchAt source start stack (n + 1) := by
  obtain ⟨rest, hdrop, hlexeme⟩ := h.exists_drop
  refine searchAt_go hdrop hstart ?_ (by omega) (by omega)
  simp only [groupVisit, hlexeme, h.noOpener, h.noCloser, Bool.false_eq_true, if_false]

/-- An opener puts its closer on the stack. -/
theorem OpenerAt.search (h : OpenerAt source n closer) (hstart : start ≤ n) :
    searchAt source start stack n = searchAt source start (closer :: stack) (n + 1) := by
  obtain ⟨opener, rest, hdrop, hpair, hlexeme⟩ := h.exists_drop
  refine searchAt_go hdrop hstart ?_ (by omega) (by omega)
  simp only [groupVisit, hlexeme, hpair]

theorem closerOf?_of_isCloser (h : isCloser b = true) : closerOf? b = none := by
  simp only [isCloser, Bool.or_eq_true, decide_eq_true_eq] at h
  rcases h with (rfl | rfl) | rfl <;> rfl

theorem isCloser_of_closerOf? {opener : UInt8} (h : closerOf? opener = some closer) :
    isCloser closer = true := by
  unfold closerOf? at h
  split at h
  · cases h; rfl
  split at h
  · cases h; rfl
  split at h
  · cases h; rfl
  · cases h

/-- The closer that was to come takes itself off the stack. -/
theorem searchAt_closer {next : UInt8} (hbyte : source[n]? = some closer)
    (hcloser : isCloser closer = true) (hstart : start ≤ n) :
    searchAt source start (closer :: next :: stack) n =
      searchAt source start (next :: stack) (n + 1) := by
  obtain ⟨rest, hdrop⟩ := drop_of_getElem? hbyte
  refine searchAt_go hdrop hstart ?_ (by omega) (by omega)
  rw [groupVisit, plain_of_isCloser hcloser]
  simp [closerOf?_of_isCloser hcloser, hcloser]

theorem OpenerAt.isCloser (h : OpenerAt source n closer) : isCloser closer = true := by
  obtain ⟨opener, _, hpair⟩ := h
  exact isCloser_of_closerOf? hpair

mutual
/-- Inside another group, a group is passed as a whole. -/
theorem GroupBetween.search : ∀ {n m : Nat}, GroupBetween source n m → start ≤ n →
    ∀ closer stack, n < m ∧
      searchAt source start (closer :: stack) n = searchAt source start (closer :: stack) m
  | _, _, .intro hopener hitems hcloser, hstart, closer, stack => by
    obtain ⟨hle, hinside⟩ := hitems.search (Nat.le_succ_of_le hstart) _ (closer :: stack)
    refine ⟨by omega, ?_⟩
    rw [hopener.search hstart, hinside,
      searchAt_closer hcloser hopener.isCloser (by omega)]

theorem ItemsBetween.search : ∀ {n m : Nat}, ItemsBetween source n m → start ≤ n →
    ∀ closer stack, n ≤ m ∧
      searchAt source start (closer :: stack) n = searchAt source start (closer :: stack) m
  | _, _, .nil n, _, _, _ => ⟨Nat.le_refl n, rfl⟩
  | _, _, .token htoken hitems, hstart, closer, stack => by
    obtain ⟨hlt, htoken⟩ := htoken.search hstart (closer :: stack)
    obtain ⟨hle, hrest⟩ := hitems.search (by omega) closer stack
    exact ⟨by omega, htoken.trans hrest⟩
  | _, _, .byte hbyte hitems, hstart, closer, stack => by
    obtain ⟨hle, hrest⟩ := hitems.search (Nat.le_succ_of_le hstart) closer stack
    exact ⟨by omega, (hbyte.search hstart).trans hrest⟩
  | _, _, .group hgroup hitems, hstart, closer, stack => by
    obtain ⟨hlt, hgroup⟩ := hgroup.search hstart closer stack
    obtain ⟨hle, hrest⟩ := hitems.search (by omega) closer stack
    exact ⟨by omega, hgroup.trans hrest⟩
end

theorem OpenAt.search (h : OpenAt source k n closer) (hstart : start ≤ k) :
    k < n ∧ ∀ stack, ∃ outer,
      searchAt source start stack k = searchAt source start (closer :: outer) n := by
  induction h with
  | here hopener hitems =>
    have hinside := hitems.search (Nat.le_succ_of_le hstart)
    refine ⟨(hinside 0 []).1, fun stack => ⟨stack, ?_⟩⟩
    rw [hopener.search hstart, (hinside _ stack).2]
  | inner hopener hitems hinner ih =>
    have hinside := hitems.search (Nat.le_succ_of_le hstart)
    have hle := (hinside 0 []).1
    obtain ⟨hlt, hsearch⟩ := ih (by omega)
    refine ⟨by omega, fun stack => ?_⟩
    obtain ⟨outer, hsearch⟩ := hsearch (_ :: stack)
    refine ⟨outer, ?_⟩
    rw [hopener.search hstart, (hinside _ stack).2, hsearch]

/-! ## What the reader answers -/

theorem group_of_search (h : searchAt source start [] start = .ok (m - start)) (hle : start ≤ m) :
    group (cursorAt source start) = .ok () (cursorAt source m) := by
  have hlength : groupLength (cursorAt source start).rest = .ok (m - start) :=
    (groupLength_drop source start).trans h
  unfold group ScanM.read
  rw [hlength]
  simp only [cursorAt_skip, Nat.add_sub_of_le hle]

theorem group_of_failure {failure : Failure} (h : searchAt source start [] start = .error failure) :
    group (cursorAt source start) =
      .error (failure.shift start).error (cursorAt source (start + failure.reached)) := by
  have hlength : groupLength (cursorAt source start).rest = .error failure :=
    (groupLength_drop source start).trans h
  unfold group ScanM.read
  rw [hlength]
  simp only [cursorAt_skip]
  rfl

/-- The reader reads the groups of the grammar. -/
theorem GroupBetween.read (h : GroupBetween source start m) :
    group (cursorAt source start) = .ok () (cursorAt source m) := by
  cases h with
  | @intro _ stop closer hopener hitems hcloser =>
    obtain ⟨hle, hinside⟩ := hitems.search (Nat.le_succ start) closer []
    obtain ⟨rest, hdrop⟩ := drop_of_getElem? hcloser
    have hoffset : stop - start + 1 = stop + 1 - start := by omega
    have hvisit : groupVisit [closer] (stop - start) closer rest =
        .stop (.ok (stop + 1 - start)) := by
      simp [groupVisit, plain_of_isCloser hopener.isCloser, hopener.isCloser,
        closerOf?_of_isCloser hopener.isCloser, hoffset]
    refine group_of_search ?_ (by omega)
    rw [hopener.search (Nat.le_refl start), hinside, searchAt_stop hdrop hvisit]

/-- A failure inside the group at `start` is the reader's, moved to where the group is. -/
theorem OpenAt.read {failure : Failure} (h : OpenAt source start n closer)
    (hfailure : ∀ outer, searchAt source start (closer :: outer) n = .error failure) :
    group (cursorAt source start) =
      .error (failure.shift start).error (cursorAt source (start + failure.reached)) := by
  obtain ⟨_, hsearch⟩ := h.search (Nat.le_refl start)
  obtain ⟨outer, hsearch⟩ := hsearch []
  exact group_of_failure (hsearch.trans (hfailure outer))

/-- Where the grammar has no group, the reader says why. -/
theorem NoGroup.read {error : ScanError} (h : NoGroup source start error m) :
    group (cursorAt source start) = .error error (cursorAt source m) := by
  cases h with
  | @mismatch _ closer b hopen hbyte hb hne =>
    have hlt := (hopen.search (Nat.le_refl start)).1
    obtain ⟨rest, hdrop⟩ := drop_of_getElem? hbyte
    have hvisit : ∀ outer, groupVisit (closer :: outer) (m - start) b rest =
        .stop (groupVisit.unexpected (m - start) b) := fun outer => by
      simp [groupVisit, plain_of_isCloser hb, hb, closerOf?_of_isCloser hb, hne.symm]
    rw [hopen.read fun outer => searchAt_stop hdrop (hvisit outer)]
    simp only [Failure.shift, Failure.error, Nat.add_sub_of_le (Nat.le_of_lt hlt),
      ← Nat.add_assoc]
  | @unclosed closer opener hopen hopener =>
    have hlt := (hopen.search (Nat.le_refl start)).1
    obtain ⟨rest, hdrop⟩ := drop_of_getElem? hopener
    have hend : ∀ outer, searchAt source start (closer :: outer) source.length =
        .error ⟨⟨0, 1⟩, .unclosed (byteText opener), source.length - start⟩ := fun outer => by
      unfold searchAt
      rw [List.drop_length, hdrop]
      rfl
    rw [hopen.read hend]
    simp only [Failure.shift, Failure.error, Nat.add_sub_of_le (Nat.le_of_lt hlt), Nat.add_zero]
  | @broken n _ closer hopen hbroken =>
    have hlt := (hopen.search (Nat.le_refl start)).1
    obtain ⟨b, rest, length, hdrop, hlexeme, rfl⟩ := hbroken.exists_lexeme
    have hvisit : ∀ outer, groupVisit (closer :: outer) (n - start) b rest = .stop (.error
        ⟨⟨n - start, n - start + length⟩, .unterminatedString, n - start + length⟩) :=
      fun outer => by simp only [groupVisit, hlexeme]
    rw [hopen.read fun outer => searchAt_stop hdrop (hvisit outer)]
    simp only [Failure.shift, Failure.error, Nat.add_sub_of_le (Nat.le_of_lt hlt),
      ← Nat.add_assoc]

/-! ## Every opener begins a group or has a reason not to -/

/-- Why the items of a group do not go on at an offset. -/
inductive ItemsEnd (source : Bytes) : Nat → Prop
  | atEnd : ItemsEnd source source.length
  | atCloser {n : Nat} {b : UInt8} (hbyte : source[n]? = some b) (hb : isCloser b = true) :
      ItemsEnd source n
  | atBroken {n m : Nat} (hbroken : BrokenBetween source n m) : ItemsEnd source n
  | atOpener {n reached : Nat} {error : ScanError} (hnone : NoGroup source n error reached) :
      ItemsEnd source n

/-- What keeps an inner opener from beginning a group keeps the outer one from it. -/
theorem NoGroup.outward {error : ScanError} (hopener : OpenerAt source start closer)
    (hitems : ItemsBetween source (start + 1) n) (h : NoGroup source n error m) :
    ∃ error reached, NoGroup source start error reached := by
  obtain ⟨opener, hbyte⟩ := hopener.exists_byte
  cases h with
  | mismatch hopen hcloser hb hne =>
    exact ⟨_, _, .mismatch (.inner hopener hitems hopen) hcloser hb hne⟩
  | unclosed hopen _ => exact ⟨_, _, .unclosed (.inner hopener hitems hopen) hbyte⟩
  | broken hopen hbroken => exact ⟨_, _, .broken (.inner hopener hitems hopen) hbroken⟩

theorem group_or_reason (hopener : OpenerAt source start closer)
    (hitems : ItemsBetween source (start + 1) n) (hend : ItemsEnd source n) :
    (∃ stop, GroupBetween source start stop) ∨
      ∃ error reached, NoGroup source start error reached := by
  obtain ⟨opener, hbyte⟩ := hopener.exists_byte
  cases hend with
  | atEnd => exact .inr ⟨_, _, .unclosed (.here hopener hitems) hbyte⟩
  | @atCloser _ b hcloser hb =>
    by_cases hmatch : b = closer
    · subst hmatch
      exact .inl ⟨_, .intro hopener hitems hcloser⟩
    · exact .inr ⟨_, _, .mismatch (.here hopener hitems) hcloser hb hmatch⟩
  | atBroken hbroken => exact .inr ⟨_, _, .broken (.here hopener hitems) hbroken⟩
  | atOpener hnone => exact .inr (hnone.outward hopener hitems)

theorem GroupBetween.within (h : GroupBetween source start m) :
    start < m ∧ m ≤ source.length := by
  cases h with
  | @intro _ stop closer hopener hitems hcloser =>
    have hle := (hitems.search (Nat.le_refl (start + 1)) closer []).1
    obtain ⟨hlt, _⟩ := List.getElem?_eq_some_iff.mp hcloser
    omega

/-- A group ends with the closer that matches its opener. -/
theorem GroupBetween.ends {opener : UInt8}
    (h : GroupBetween source start m) (hbyte : source[start]? = some opener)
    (hpair : closerOf? opener = some closer) :
    start + 1 ≤ m - 1 ∧ source[m - 1]? = some closer := by
  cases h with
  | @intro _ last found hopener hitems hcloser =>
    obtain ⟨first, hfirst, hfound⟩ := hopener
    obtain rfl : opener = first := Option.some.inj (hbyte.symm.trans hfirst)
    obtain rfl : closer = found := Option.some.inj (hpair.symm.trans hfound)
    exact ⟨(hitems.search (Nat.le_refl (start + 1)) closer []).1, hcloser⟩

/-- The items from an offset on, as many as there are. -/
theorem exists_items (source : Bytes) (n : Nat) (hn : n ≤ source.length) :
    ∃ m, ItemsBetween source n m ∧ ItemsEnd source m := by
  induction hleft : source.length - n using Nat.strongRecOn generalizing n with
  | ind left ih =>
    cases hdrop : source.drop n with
    | nil =>
      have hend : n = source.length := Nat.le_antisymm hn (List.drop_eq_nil_iff.mp hdrop)
      exact ⟨n, .nil n, hend ▸ .atEnd⟩
    | cons b rest =>
      have hlength : source.length - n = rest.length + 1 := by
        rw [← List.length_drop, hdrop, List.length_cons]
      have hbyte : source[n]? = some b := by rw [← List.head?_drop, hdrop, List.head?_cons]
      have htoken := trivia_cursorAt hdrop
      cases hlexeme : lexeme b rest with
      | trivia length =>
        rw [hlexeme] at htoken
        have hpos := trivia_pos hlexeme
        have hwithin := trivia_within hlexeme
        obtain ⟨m, hitems, hend⟩ := ih _ (by omega) (n + length) (by omega) rfl
        exact ⟨m, .token htoken hitems, hend⟩
      | broken length =>
        rw [hlexeme] at htoken
        exact ⟨n, .nil n, .atBroken htoken⟩
      | plain =>
        rw [hlexeme] at htoken
        obtain ⟨m, hitems, hend⟩ := ih _ (by omega) (n + 1) (by omega) rfl
        cases hpair : closerOf? b with
        | some closer =>
          rcases group_or_reason ⟨b, hbyte, hpair⟩ hitems hend with ⟨k, hgroup⟩ | ⟨_, _, hnone⟩
          · have hk := hgroup.within
            obtain ⟨m, hitems, hend⟩ := ih _ (by omega) k (by omega) rfl
            exact ⟨m, .group hgroup hitems, hend⟩
          · exact ⟨n, .nil n, .atOpener hnone⟩
        | none =>
          cases hb : isCloser b with
          | true => exact ⟨n, .nil n, .atCloser hbyte hb⟩
          | false => exact ⟨m, .byte ⟨hbyte, hpair, hb, htoken⟩ hitems, hend⟩

theorem OpenerAt.group_or_reason (h : OpenerAt source start closer) :
    (∃ stop, GroupBetween source start stop) ∨
      ∃ error reached, NoGroup source start error reached := by
  obtain ⟨opener, hbyte⟩ := h.exists_byte
  obtain ⟨hlt, _⟩ := List.getElem?_eq_some_iff.mp hbyte
  obtain ⟨n, hitems, hend⟩ := exists_items source (start + 1) hlt
  exact ZigMarkup.group_or_reason h hitems hend

/-- What is read as a group is one. -/
theorem OpenerAt.group_of_read {next : Cursor} (h : OpenerAt source start closer)
    (hread : group (cursorAt source start) = .ok () next) :
    ∃ stop, next = cursorAt source stop ∧ GroupBetween source start stop := by
  rcases h.group_or_reason with ⟨stop, hgroup⟩ | ⟨error, reached, hnone⟩
  · rw [hgroup.read] at hread
    injection hread with _ hnext
    exact ⟨stop, hnext.symm, hgroup⟩
  · rw [hnone.read] at hread
    cases hread

/-- The reader and the grammar agree at every opening bracket: a group is read exactly where the
grammar has one, it has one end, and reading fails exactly for the grammar's reasons. -/
theorem group_reads_bracket_grammar {opener : UInt8} (hbyte : source[start]? = some opener)
    (hopener : opener = ascii '(' ∨ opener = ascii '[' ∨ opener = ascii '\x7b') :
    (∀ next, group (cursorAt source start) = .ok () next ↔
      ∃ stop, next = cursorAt source stop ∧ GroupBetween source start stop) ∧
    (∀ stop stop', GroupBetween source start stop → GroupBetween source start stop' →
      stop = stop') ∧
    (∀ error next, group (cursorAt source start) = .error error next ↔
      ∃ reached, next = cursorAt source reached ∧ NoGroup source start error reached) := by
  have hpair : ∃ closer, closerOf? opener = some closer := by
    rcases hopener with rfl | rfl | rfl <;> exact ⟨_, rfl⟩
  obtain ⟨closer, hpair⟩ := hpair
  have hopener : OpenerAt source start closer := ⟨opener, hbyte, hpair⟩
  refine ⟨fun next => ⟨hopener.group_of_read, ?_⟩, fun stop stop' hstop hstop' => ?_,
    fun error next => ⟨fun hread => ?_, ?_⟩⟩
  · rintro ⟨stop, rfl, hgroup⟩
    exact hgroup.read
  · have hread := hstop.read
    rw [hstop'.read] at hread
    injection hread with _ hcursor
    exact (cursorAt_inj hcursor).symm
  · rcases hopener.group_or_reason with ⟨stop, hgroup⟩ | ⟨error', reached, hnone⟩
    · rw [hgroup.read] at hread
      cases hread
    · rw [hnone.read] at hread
      injection hread with herror hnext
      exact ⟨reached, hnext.symm, herror ▸ hnone⟩
  · rintro ⟨reached, rfl, hnone⟩
    exact hnone.read

/-- Brackets in a string, a character literal and a comment do not count. -/
theorem group_reads_bracket_grammar_nested :
    GroupBetween (utf8 "([\x7b\"]\"\x7d, ')' // ]\n'])") 0 21 ∧
    NoGroup (utf8 "([\x7b\x7d)]") 0 ⟨⟨4, 5⟩, .unexpected ')'⟩ 4 ∧
    NoGroup (utf8 "([])\x7b[()]") 4 ⟨⟨4, 5⟩, .unclosed "\x7b"⟩ 9 ∧
    NoGroup (utf8 "[(\")\n)]") 0 ⟨⟨2, 4⟩, .unterminatedString⟩ 4 := by
  obtain ⟨stop, hstop, hgroup⟩ := ((group_reads_bracket_grammar
    (by decide +kernel : (utf8 "([\x7b\"]\"\x7d, ')' // ]\n'])")[0]? = some (ascii '('))
    (.inl rfl)).1 (cursorAt (utf8 "([\x7b\"]\"\x7d, ')' // ]\n'])") 21)).mp (by decide +kernel)
  obtain ⟨crossed, hcrossed, hmismatch⟩ := ((group_reads_bracket_grammar
    (by decide +kernel : (utf8 "([\x7b\x7d)]")[0]? = some (ascii '(')) (.inl rfl)).2.2
    ⟨⟨4, 5⟩, .unexpected ')'⟩ (cursorAt (utf8 "([\x7b\x7d)]") 4)).mp (by decide +kernel)
  obtain ⟨last, hlast, hunclosed⟩ := ((group_reads_bracket_grammar
    (by decide +kernel : (utf8 "([])\x7b[()]")[4]? = some (ascii '\x7b')) (.inr (.inr rfl))).2.2
    ⟨⟨4, 5⟩, .unclosed "\x7b"⟩ (cursorAt (utf8 "([])\x7b[()]") 9)).mp (by decide +kernel)
  obtain ⟨cut, hcut, hbroken⟩ := ((group_reads_bracket_grammar
    (by decide +kernel : (utf8 "[(\")\n)]")[0]? = some (ascii '[')) (.inr (.inl rfl))).2.2
    ⟨⟨2, 4⟩, .unterminatedString⟩ (cursorAt (utf8 "[(\")\n)]") 4)).mp (by decide +kernel)
  exact ⟨cursorAt_inj hstop ▸ hgroup, cursorAt_inj hcrossed ▸ hmismatch,
    cursorAt_inj hlast ▸ hunclosed, cursorAt_inj hcut ▸ hbroken⟩

end ZigMarkup
