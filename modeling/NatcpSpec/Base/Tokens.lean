import NatcpSpec.Base.Decimal

/-!
# Tokens

`strtok_r` on a byte buffer, and the tokens of a text: its non-empty stretches between
delimiters. On a terminated text the calls of `strtok_r` return these tokens one by one.
-/

namespace NatcpSpec.Base

/-- The tokens of a text, in order. -/
def tokens (d : UInt8 → Bool) (l : Text) : List Text := (l.splitOnP d).filter (fun t ↦ t ≠ [])

/-- The delimiter string of one space. -/
def isBlank (b : UInt8) : Bool := b == 32

/-- What a call of `strtok_r` returns. -/
inductive Tok where
  /-- The call reads past the end of the buffer. -/
  | overrun
  /-- There is no token before the terminator. -/
  | null
  /-- A token, and the buffer from the saved pointer on. -/
  | token (t rest : Text)
deriving DecidableEq

/-- `strtok_r` on the buffer from the saved pointer on: delimiters are skipped, and the
token ends before the next delimiter or at the terminator. -/
def strtokR (d : UInt8 → Bool) (buf : Text) : Tok :=
  match buf.dropWhile d with
  | [] => .overrun
  | b :: r =>
    if b = 0 then .null
    else
      match (b :: r).dropWhile (fun c ↦ !d c && c != 0) with
      | [] => .overrun
      | e :: rest =>
        .token ((b :: r).takeWhile (fun c ↦ !d c && c != 0)) (if e = 0 then e :: rest else rest)

/-- The pieces of a text between stretches of delimiters, with an empty piece before a
stretch at its start and behind one at its end. -/
def splitRuns (d : UInt8 → Bool) : Text → List Text
  | [] => [[]]
  | b :: r =>
    if d b then if r.head?.any d then splitRuns d r else [] :: splitRuns d r
    else
      match splitRuns d r with
      | [] => [[b]]
      | w :: ws => (b :: w) :: ws

/-- A non-empty text without delimiters. -/
def IsWord (d : UInt8 → Bool) (w : Text) : Prop := w ≠ [] ∧ ∀ b ∈ w, d b = false

/-- What a cut after `k` bytes leaves of words written one delimiter apart. -/
def cutWords : List Text → ℕ → List Text
  | [], _ => []
  | w :: ws, k =>
    if k = 0 then [] else if k ≤ w.length then [w.take k] else w :: cutWords ws (k - w.length - 1)

section Tokens

variable {d : UInt8 → Bool} {w l z : Text} {x : UInt8}

/-- The empty text has no tokens. -/
@[simp]
theorem tokens_nil : tokens d [] = [] := by simp [tokens]

/-- Tokens split at a delimiter. -/
theorem tokens_append_cons (hx : d x = true) (w l : Text) :
    tokens d (w ++ x :: l) = tokens d w ++ tokens d l := by
  rw [tokens, List.splitOnP_append_cons w l hx, List.filter_append]
  rfl

/-- A word is one token. -/
theorem tokens_word (hw : IsWord d w) : tokens d w = [w] := by
  rw [tokens, List.splitOnP_eq_singleton hw.2]
  simp [hw.1]

/-- The beginning of a word is a word. -/
theorem IsWord.take (hw : IsWord d w) {k : ℕ} (hk : k ≠ 0) : IsWord d (w.take k) := by
  constructor
  · rw [ne_eq, List.take_eq_nil_iff]
    exact not_or.mpr ⟨hk, hw.1⟩
  · intro b hb
    exact hw.2 b (List.mem_of_mem_take hb)

/-- The tokens of words written one delimiter apart and cut after `k` bytes. -/
theorem tokens_take_intercalate (hx : d x = true) {ws : List Text} (hws : ∀ w ∈ ws, IsWord d w)
    (k : ℕ) : tokens d (([x].intercalate ws).take k) = cutWords ws k := by
  induction ws generalizing k with
  | nil => simp [cutWords]
  | cons w ws ih =>
    have hw := hws w List.mem_cons_self
    have ih' := ih (fun v hv ↦ hws v (List.mem_cons_of_mem w hv))
    rw [cutWords]
    split
    · next hk => simp [hk]
    · next hk =>
      -- A last word has no delimiter after it, so that a cut behind its end is no cut.
      rcases ws with _ | ⟨v, ws⟩
      · rw [List.intercalate_singleton, tokens_word (hw.take hk)]
        split
        · rfl
        · next hle => rw [List.take_of_length_le (by omega), cutWords]
      · rw [List.intercalate_cons_cons, List.append_assoc, List.singleton_append]
        split
        · next hle => rw [List.take_append_of_le_length hle, tokens_word (hw.take hk)]
        · next hle =>
          rw [List.take_append, List.take_of_length_le (by omega),
            show k - w.length = (k - w.length - 1) + 1 by omega, List.take_succ_cons,
            tokens_append_cons hx, tokens_word hw, ih', Nat.add_sub_cancel]
          rfl

/-- A byte of words written one delimiter apart is the delimiter or in a word. -/
theorem eq_or_mem_of_mem_intercalate {ws : List Text} {b : UInt8} (h : b ∈ [x].intercalate ws) :
    b = x ∨ ∃ w ∈ ws, b ∈ w := by
  induction ws with
  | nil => simp at h
  | cons w ws ih =>
    rcases ws with _ | ⟨v, ws⟩
    · rw [List.intercalate_singleton] at h
      exact Or.inr ⟨w, List.mem_cons_self, h⟩
    · rw [List.intercalate_cons_cons, List.mem_append, List.mem_append,
        List.mem_singleton] at h
      rcases h with (h | h) | h
      · exact Or.inr ⟨w, List.mem_cons_self, h⟩
      · exact Or.inl h
      · rcases ih h with h | ⟨u, hu, hb⟩
        · exact Or.inl h
        · exact Or.inr ⟨u, List.mem_cons_of_mem w hu, hb⟩

/-- A cut in the first word or right behind it leaves only that word. -/
theorem cutWords_of_le {ws : List Text} {k : ℕ} (h0 : 0 < k) (hk : k ≤ w.length + 1) :
    cutWords (w :: ws) k = [w.take k] := by
  rw [cutWords, if_neg (by omega)]
  split
  · rfl
  · next hle =>
    rw [List.take_of_length_le (by omega), show k - w.length - 1 = 0 by omega]
    cases ws <;> simp [cutWords]

/-- A cut behind the first word and its delimiter is a cut of the words after it. -/
theorem cutWords_of_lt {ws : List Text} {k : ℕ} (hk : w.length + 1 < k) :
    cutWords (w :: ws) k = w :: cutWords ws (k - w.length - 1) := by
  rw [cutWords, if_neg (by omega), if_neg (by omega)]

/-- A cut that leaves anything leaves the first word up to it. -/
theorem exists_cutWords_eq_cons {k : ℕ} (h0 : 0 < k) (w : Text) (ws : List Text) :
    ∃ rest, cutWords (w :: ws) k = w.take k :: rest := by
  by_cases hk : k ≤ w.length + 1
  · exact ⟨[], cutWords_of_le h0 hk⟩
  · exact ⟨_, by rw [cutWords_of_lt (by omega), List.take_of_length_le (by omega)]⟩

/-- Words written one delimiter apart are the tokens of that text. -/
theorem tokens_intercalate (hx : d x = true) {ws : List Text} (hws : ∀ w ∈ ws, IsWord d w) :
    tokens d ([x].intercalate ws) = ws := by
  induction ws with
  | nil => simp
  | cons w ws ih =>
    have hw := tokens_word (hws w List.mem_cons_self)
    have ih' := ih (fun v hv ↦ hws v (List.mem_cons_of_mem w hv))
    rcases ws with _ | ⟨v, ws⟩
    · rw [List.intercalate_singleton, hw]
    · rw [List.intercalate_cons_cons, List.append_assoc, List.singleton_append,
        tokens_append_cons hx, hw, ih', List.singleton_append]

/-- A text that starts with no delimiter starts with a word, which ends with the text or
at a delimiter. -/
theorem exists_word_append (hx : d x = false) (l : Text) :
    ∃ w r, x :: l = w ++ r ∧ IsWord d w ∧ (r = [] ∨ ∃ y l', r = y :: l' ∧ d y = true) := by
  refine ⟨(x :: l).takeWhile (fun c ↦ !d c), (x :: l).dropWhile (fun c ↦ !d c), ?_, ?_, ?_⟩
  · rw [List.takeWhile_append_dropWhile]
  · refine ⟨by simp [hx], ?_⟩
    intro b hb
    simpa using List.mem_takeWhile_imp hb
  · rcases h : (x :: l).dropWhile (fun c ↦ !d c) with _ | ⟨y, l'⟩
    · exact Or.inl rfl
    · refine Or.inr ⟨y, l', rfl, ?_⟩
      have hne : (x :: l).dropWhile (fun c ↦ !d c) ≠ [] := by simp [h]
      have hy := List.head_dropWhile_not (fun c ↦ !d c) hne
      simpa [h] using hy

/-- A leading delimiter changes no tokens. -/
theorem tokens_cons_of_pos (hx : d x = true) (l : Text) : tokens d (x :: l) = tokens d l := by
  rw [← List.nil_append (x :: l), tokens_append_cons hx, tokens_nil, List.nil_append]

/-- What follows a text does not take tokens away. -/
theorem length_tokens_le_append (w z : Text) :
    (tokens d w).length ≤ (tokens d (w ++ z)).length := by
  -- Induction on the length: a step takes a delimiter or a whole word.
  induction hn : w.length using Nat.strong_induction_on generalizing w with
  | _ n ih =>
    rcases w with _ | ⟨x, l⟩
    · simp
    cases hx : d x with
    | true =>
      rw [List.cons_append, tokens_cons_of_pos hx, tokens_cons_of_pos hx]
      exact ih l.length (by simp at hn; omega) l rfl
    | false =>
      obtain ⟨w, r, hwr, hw, rfl | ⟨y, l', rfl, hy⟩⟩ := exists_word_append hx l
      · rw [hwr, List.append_nil, tokens_word hw, List.length_singleton, ← List.append_nil w,
          ← hwr, List.cons_append]
        obtain ⟨v, r, hvr, hv, rfl | ⟨y, l', rfl, hy⟩⟩ := exists_word_append hx (l ++ z)
        · rw [hvr, List.append_nil, tokens_word hv, List.length_singleton]
        · rw [hvr, tokens_append_cons hy, tokens_word hv, List.length_append]
          simp
      · have hlen : l'.length < n := by
          rw [← hn, hwr]
          simp
          omega
        have hl' := ih l'.length hlen l' rfl
        rw [hwr, List.append_assoc, List.cons_append, tokens_append_cons hy,
          tokens_append_cons hy, List.length_append, List.length_append]
        omega

end Tokens

/-! ### Tokens that a delimiter follows -/

/-- The tokens of a text that a delimiter follows. -/
def closedTokens (d : UInt8 → Bool) (l : Text) : List Text :=
  (l.splitOnP d).dropLast.filter (fun t ↦ t ≠ [])

section Closed

variable {d : UInt8 → Bool} {w l : Text} {x : UInt8}

/-- Before a delimiter every token is followed by one. -/
theorem closedTokens_append_cons (hx : d x = true) (w l : Text) :
    closedTokens d (w ++ x :: l) = tokens d w ++ closedTokens d l := by
  rw [closedTokens, List.splitOnP_append_cons w l hx,
    List.dropLast_append_of_ne_nil (List.splitOnP_ne_nil d l), List.filter_append]
  rfl

/-- Without a delimiter no token is followed by one. -/
theorem closedTokens_of_forall (hw : ∀ b ∈ w, d b = false) : closedTokens d w = [] := by
  rw [closedTokens, List.splitOnP_eq_singleton hw]
  rfl

private theorem exists_closedTokens_append (l : Text) :
    ∃ rest, closedTokens d l ++ rest = tokens d l :=
  List.IsPrefix.filter _ ( List.dropLast_prefix _)

/-- There are no more tokens that a delimiter follows than tokens. -/
theorem length_closedTokens_le (l : Text) :
    (closedTokens d l).length ≤ (tokens d l).length := by
  obtain ⟨rest, hrest⟩ := exists_closedTokens_append (d := d) l
  rw [← hrest, List.length_append]
  exact Nat.le_add_right _ _

/-- A token that a delimiter follows has the same place among all tokens. -/
theorem tokens_of_closedTokens {i : ℕ} {t : Text} (h : (closedTokens d l)[i]? = some t) :
    (tokens d l)[i]? = some t := by
  obtain ⟨rest, hrest⟩ := exists_closedTokens_append (d := d) l
  rw [← hrest, List.getElem?_append_left (List.getElem?_eq_some_iff.mp h).1]
  exact h

end Closed

/-! ### Calls of strtok_r -/

section Calls

variable {d : UInt8 → Bool} {w l z : Text} {x : UInt8}

private theorem strtokR_cons_of_pos (hx : d x = true) (l : Text) :
    strtokR d (x :: l) = strtokR d l := by
  rw [strtokR, strtokR, List.dropWhile_cons_of_pos hx]

private theorem inToken_of_isWord (hw : IsWord d w) (h0 : 0 ∉ w) :
    ∀ b ∈ w, (!d b && b != 0) = true := by
  intro b hb
  have hb0 : b ≠ 0 := fun h ↦ h0 (h ▸ hb)
  simp [hw.2 b hb, hb0]

-- A word is returned when the byte after it ends it.
private theorem strtokR_word_cons (hw : IsWord d w) (h0 : 0 ∉ w) {e : UInt8} {rest : Text}
    (he : (!d e && e != 0) = false) :
    strtokR d (w ++ e :: rest) = .token w (if e = 0 then e :: rest else rest) := by
  have hall := inToken_of_isWord hw h0
  rcases w with _ | ⟨x, w⟩
  · exact absurd rfl hw.1
  have hx : d x = false := hw.2 x List.mem_cons_self
  have hx0 : x ≠ 0 := fun h ↦ h0 (h ▸ List.mem_cons_self)
  unfold strtokR
  rw [List.cons_append, List.dropWhile_cons_of_neg (by simp [hx])]
  simp only [hx0, ↓reduceIte]
  rw [← List.cons_append, List.dropWhile_append_of_pos hall, List.takeWhile_append_of_pos hall,
    List.dropWhile_cons_of_neg (by simp [he]), List.takeWhile_cons_of_neg (by simp [he]),
    List.append_nil]

private theorem strtokR_word (hw : IsWord d w) (h0 : 0 ∉ w) : strtokR d w = .overrun := by
  have hall := inToken_of_isWord hw h0
  rcases w with _ | ⟨x, w⟩
  · exact absurd rfl hw.1
  have hx : d x = false := hw.2 x List.mem_cons_self
  have hx0 : x ≠ 0 := fun h ↦ h0 (h ▸ List.mem_cons_self)
  unfold strtokR
  rw [List.dropWhile_cons_of_neg (by simp [hx])]
  simp only [hx0, ↓reduceIte]
  rw [List.dropWhile_eq_nil_iff.mpr hall]

/-- A call on a terminated text returns its first token and leaves the rest to the next
call, or returns no token if there is none. -/
theorem strtokR_text (h0 : d 0 = false) (hl : 0 ∉ l) :
    (tokens d l = [] ∧ strtokR d (l ++ 0 :: z) = .null) ∨
    ∃ t l', 0 ∉ l' ∧ tokens d l = t :: tokens d l' ∧
      strtokR d (l ++ 0 :: z) = .token t (l' ++ 0 :: z) := by
  induction l with
  | nil => exact Or.inl ⟨tokens_nil, by simp [strtokR, h0]⟩
  | cons x l ih =>
    cases hx : d x with
    | true =>
      rw [tokens_cons_of_pos hx, List.cons_append, strtokR_cons_of_pos hx]
      exact ih (fun h ↦ hl (List.mem_cons_of_mem x h))
    | false =>
      right
      obtain ⟨w, r, hwr, hw, hr⟩ := exists_word_append hx l
      rw [hwr] at hl ⊢
      have hw0 : 0 ∉ w := fun h ↦ hl (List.mem_append_left r h)
      rcases hr with rfl | ⟨y, l', rfl, hy⟩
      · refine ⟨w, [], by simp, ?_, ?_⟩
        · rw [List.append_nil, tokens_word hw, tokens_nil]
        · rw [List.append_nil, strtokR_word_cons hw hw0 (by simp)]
          simp
      · have hy0 : y ≠ 0 := fun h ↦ hl (List.mem_append_right w (h ▸ List.mem_cons_self))
        refine ⟨w, l', fun h ↦ hl (List.mem_append_right w (List.mem_cons_of_mem y h)), ?_, ?_⟩
        · rw [tokens_append_cons hy, tokens_word hw, List.singleton_append]
        · rw [List.append_assoc, List.cons_append, strtokR_word_cons hw hw0 (by simp [hy]),
            if_neg hy0]

/-- A call on a buffer without terminator returns the first token that a delimiter follows,
or reads past the end of the buffer if there is none. -/
theorem strtokR_open (hl : 0 ∉ l) :
    (closedTokens d l = [] ∧ strtokR d l = .overrun) ∨
    ∃ t l', 0 ∉ l' ∧ closedTokens d l = t :: closedTokens d l' ∧ strtokR d l = .token t l' := by
  induction l with
  | nil => exact Or.inl ⟨closedTokens_of_forall (by simp), rfl⟩
  | cons x l ih =>
    cases hx : d x with
    | true =>
      rw [← List.nil_append (x :: l), closedTokens_append_cons hx, tokens_nil, List.nil_append,
        List.nil_append, strtokR_cons_of_pos hx]
      exact ih (fun h ↦ hl (List.mem_cons_of_mem x h))
    | false =>
      obtain ⟨w, r, hwr, hw, hr⟩ := exists_word_append hx l
      rw [hwr] at hl ⊢
      have hw0 : 0 ∉ w := fun h ↦ hl (List.mem_append_left r h)
      rcases hr with rfl | ⟨y, l', rfl, hy⟩
      · left
        rw [List.append_nil]
        exact ⟨closedTokens_of_forall hw.2, strtokR_word hw hw0⟩
      · right
        have hy0 : y ≠ 0 := fun h ↦ hl (List.mem_append_right w (h ▸ List.mem_cons_self))
        refine ⟨w, l', fun h ↦ hl (List.mem_append_right w (List.mem_cons_of_mem y h)), ?_, ?_⟩
        · rw [closedTokens_append_cons hy, tokens_word hw, List.singleton_append]
        · rw [strtokR_word_cons hw hw0 (by simp [hy]), if_neg hy0]

end Calls

end NatcpSpec.Base
