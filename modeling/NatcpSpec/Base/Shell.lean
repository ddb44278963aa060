import NatcpSpec.Base.Decimal

/-!
# Words of a shell command

How `sh` takes the text of one simple command apart into the arguments of a program: blanks
between words, both kinds of quotes, parameters, command substitutions and a final `&`. The
rest of the language is not read: operators, backslashes, patterns, comments, assignments
before the command and expansions inside double quotes have no words here.

The reader is a fold over the bytes, so that a text is read piece by piece.
-/

namespace NatcpSpec.Base

/-- Values of parameters, and outputs of commands without the newlines at their end. -/
structure ShellEnv where
  parameter : Text → Text
  output : Text → Text

/-- Where the reader is. -/
inductive ShellMode where
  | plain
  | single
  | double
  /-- In the name of a parameter. -/
  | parameter (name : Text)
  /-- In the text of a command substitution. -/
  | command (text : Text)
  /-- Behind the `&` that ends the command. -/
  | background
deriving DecidableEq

/-- The reader: the words that are complete, and the word it is in. -/
structure ShellState where
  mode : ShellMode
  words : List Text
  word : Option Text

/-- Letters and the underscore. -/
def isNameStart (b : UInt8) : Bool := (65 ≤ b && b ≤ 90) || (97 ≤ b && b ≤ 122) || b == 95

/-- A byte of the name of a parameter. -/
def isNameByte (b : UInt8) : Bool := isNameStart b || isDigit b

/-- Letters, digits and `+ , - . / : @ _`, which stand for themselves in any word. -/
def isPlain (b : UInt8) : Bool :=
  isNameByte b || (43 ≤ b && b ≤ 47) || b == 58 || b == 64

/-- Blanks between words. -/
def isShellBlank (b : UInt8) : Bool := b == 32 || b == 9

/-- Bytes at which the value of an expansion is split: blank, tab and newline. -/
def isIfs (b : UInt8) : Bool := isShellBlank b || b == 10

namespace ShellState

/-- Add a byte to the word. -/
def push (s : ShellState) (b : UInt8) : ShellState :=
  { s with word := some (s.word.getD [] ++ [b]) }

/-- Complete the word, if there is one. -/
def close (s : ShellState) : ShellState :=
  { s with
    words := s.words ++ s.word.toList
    word := none }

/-- Go on in another mode. -/
def enter (s : ShellState) (m : ShellMode) : ShellState := { s with mode := m }

/-- Insert the value of an expansion, split into fields. -/
def splice (s : ShellState) (value : Text) : ShellState :=
  value.foldl (fun s b ↦ if isIfs b then s.close else s.push b) s

/-- A byte outside of quotes. -/
def plainStep (s : ShellState) (b : UInt8) : Option ShellState :=
  if isShellBlank b then some s.close
  else if b = 39 then some { s with mode := .single, word := some (s.word.getD []) }
  else if b = 34 then some { s with mode := .double, word := some (s.word.getD []) }
  else if b = 36 then some (s.enter (.parameter []))
  else if b = 96 then some (s.enter (.command []))
  else if b = 38 then some (s.close.enter .background)
  -- An equals sign in the first word would make it an assignment.
  else if b = 61 then if s.words = [] then none else some (s.push b)
  else if isPlain b then some (s.push b)
  else none

/-- A byte in any mode. -/
def step (env : ShellEnv) (s : ShellState) (b : UInt8) : Option ShellState :=
  match s.mode with
  | .plain => s.plainStep b
  | .single => some (if b = 39 then s.enter .plain else s.push b)
  | .double =>
    if b = 34 then some (s.enter .plain)
    else if b = 36 ∨ b = 92 ∨ b = 96 then none
    else some (s.push b)
  | .parameter name =>
    if name = [] then if isNameStart b then some (s.enter (.parameter [b])) else none
    else if isNameByte b then some (s.enter (.parameter (name ++ [b])))
    else ((s.enter .plain).splice (env.parameter name)).plainStep b
  | .command text =>
    if b = 96 then some ((s.enter .plain).splice (env.output text))
    else some (s.enter (.command (text ++ [b])))
  | .background => if isShellBlank b then some s else none

/-- The words at the end of the text. -/
def finish (env : ShellEnv) (s : ShellState) : Option (List Text) :=
  match s.mode with
  | .plain | .background => some s.close.words
  | .parameter name =>
    if name = [] then none else some ((s.enter .plain).splice (env.parameter name)).close.words
  | _ => none

end ShellState

/-- The words of a command. -/
def shellWords (env : ShellEnv) (text : Text) : Option (List Text) :=
  (text.foldlM (ShellState.step env) ⟨.plain, [], none⟩).bind (ShellState.finish env)

/-! ### Bytes that stand for themselves -/

section Reader

variable {env : ShellEnv} {m : ShellMode} {w v : Text} {ws : List Text} {u : Option Text}

private theorem foldlM_push (hw : ∀ b ∈ w, ∀ u, ShellState.step env ⟨m, ws, u⟩ b =
    some (ShellState.push ⟨m, ws, u⟩ b)) (x : Text) :
    w.foldlM (ShellState.step env) ⟨m, ws, some x⟩ = some ⟨m, ws, some (x ++ w)⟩ := by
  induction w generalizing x with
  | nil => simp
  | cons b w ih =>
    rw [List.foldlM_cons, hw b List.mem_cons_self]
    change w.foldlM (ShellState.step env) ⟨m, ws, some (x ++ [b])⟩ = _
    rw [ih (fun c hc ↦ hw c (List.mem_cons_of_mem b hc)), List.append_assoc]
    rfl

private theorem foldlM_push_of_ne_nil (hw : ∀ b ∈ w, ∀ u, ShellState.step env ⟨m, ws, u⟩ b =
    some (ShellState.push ⟨m, ws, u⟩ b)) (hne : w ≠ []) :
    w.foldlM (ShellState.step env) ⟨m, ws, u⟩ = some ⟨m, ws, some (u.getD [] ++ w)⟩ := by
  cases w with
  | nil => exact absurd rfl hne
  | cons b w =>
    rw [List.foldlM_cons, hw b List.mem_cons_self]
    change w.foldlM (ShellState.step env) ⟨m, ws, some (u.getD [] ++ [b])⟩ = _
    rw [foldlM_push (fun c hc ↦ hw c (List.mem_cons_of_mem b hc)), List.append_assoc]
    rfl

private theorem plainStep_of_isPlain {s : ShellState} {b : UInt8} (h : isPlain b = true) :
    s.plainStep b = some (s.push b) := by
  have hblank : isShellBlank b = false := by
    by_contra hb
    simp only [isShellBlank, Bool.not_eq_false, Bool.or_eq_true, beq_iff_eq] at hb
    rcases hb with rfl | rfl
    · exact absurd h (by decide)
    · exact absurd h (by decide)
  have hne : ∀ c, isPlain c = false → b ≠ c := by
    rintro c hc rfl
    rw [h] at hc
    cases hc
  simp [ShellState.plainStep, hblank, h, hne 39 (by decide), hne 34 (by decide),
    hne 36 (by decide), hne 96 (by decide), hne 38 (by decide), hne 61 (by decide)]

/-- The first word of a command. -/
theorem foldlM_of_isPlain (hw : ∀ b ∈ w, isPlain b = true) (hne : w ≠ []) :
    w.foldlM (ShellState.step env) ⟨.plain, [], none⟩ = some ⟨.plain, [], some w⟩ :=
  foldlM_push_of_ne_nil (fun b hb _ ↦ plainStep_of_isPlain (hw b hb)) hne

/-! ### Pieces of a word -/

/-- Inside a word that is not the first, a text adds the given bytes to the word. -/
def Adds (env : ShellEnv) (w v : Text) : Prop :=
  ∀ ws u, ws ≠ [] → w.foldlM (ShellState.step env) ⟨.plain, ws, u⟩ =
    some ⟨.plain, ws, some (u.getD [] ++ v)⟩

/-- Pieces of a word follow one another. -/
theorem Adds.append {w' v' : Text} (h : Adds env w v) (h' : Adds env w' v') :
    Adds env (w ++ w') (v ++ v') := by
  intro ws u hws
  rw [List.foldlM_append, h ws u hws]
  change w'.foldlM (ShellState.step env) ⟨.plain, ws, some (u.getD [] ++ v)⟩ = _
  rw [h' ws _ hws, Option.getD_some, List.append_assoc]

/-- Plain bytes and equals signs stand for themselves. -/
theorem adds_literal (hw : ∀ b ∈ w, isPlain b = true ∨ b = 61) (hne : w ≠ []) :
    Adds env w w := by
  intro ws u hws
  refine foldlM_push_of_ne_nil ?_ hne
  intro b hb u
  rcases hw b hb with h | rfl
  · exact plainStep_of_isPlain h
  · simp [ShellState.step, ShellState.plainStep, isShellBlank, hws]

/-- Between single quotes everything stands for itself. -/
theorem adds_single (hw : 39 ∉ w) : Adds env (39 :: w ++ [39]) w := by
  intro ws u _
  have hpush : ∀ b ∈ w, ∀ u, ShellState.step env ⟨.single, ws, u⟩ b =
      some (ShellState.push ⟨.single, ws, u⟩ b) := by
    intro b hb u
    have hne : b ≠ 39 := by
      rintro rfl
      exact hw hb
    simp [ShellState.step, hne]
  rw [List.cons_append, List.foldlM_cons]
  change (w ++ [39]).foldlM (ShellState.step env) ⟨.single, ws, some (u.getD [])⟩ = _
  rw [List.foldlM_append, foldlM_push hpush]
  rfl

/-- Between double quotes a text without quotes, dollars, backslashes and backquotes stands
for itself. -/
theorem adds_double (hw : ∀ b ∈ w, b ≠ 34 ∧ b ≠ 36 ∧ b ≠ 92 ∧ b ≠ 96) :
    Adds env (34 :: w ++ [34]) w := by
  intro ws u _
  have hpush : ∀ b ∈ w, ∀ u, ShellState.step env ⟨.double, ws, u⟩ b =
      some (ShellState.push ⟨.double, ws, u⟩ b) := by
    intro b hb u
    obtain ⟨h34, h36, h92, h96⟩ := hw b hb
    simp [ShellState.step, h34, h36, h92, h96]
  rw [List.cons_append, List.foldlM_cons]
  change (w ++ [34]).foldlM (ShellState.step env) ⟨.double, ws, some (u.getD [])⟩ = _
  rw [List.foldlM_append, foldlM_push hpush]
  rfl

/-! ### Words -/

/-- The reader is at the end of the last of some words. -/
structure Ends (env : ShellEnv) (t : ShellState) (ws : List Text) : Prop where
  blank : t.step env 32 = some ⟨.plain, ws, none⟩
  finish : t.finish env = some ws

/-- A text is the one word, if it is not the first. -/
def Spells (env : ShellEnv) (w v : Text) : Prop :=
  ∀ ws, ws ≠ [] → ∃ t, w.foldlM (ShellState.step env) ⟨.plain, ws, none⟩ = some t ∧
    Ends env t (ws ++ [v])

private theorem ends_plain (ws : List Text) (v : Text) :
    Ends env ⟨.plain, ws, some v⟩ (ws ++ [v]) := ⟨rfl, rfl⟩

/-- Pieces make a word. -/
theorem Adds.spells (h : Adds env w v) : Spells env w v := by
  intro ws hws
  refine ⟨_, h ws none hws, ?_⟩
  rw [Option.getD_none, List.nil_append]
  exact ends_plain ws v

/-- A value that is one field: not empty, and without blanks, tabs and newlines. -/
def IsField (v : Text) : Prop := v ≠ [] ∧ ∀ b ∈ v, isIfs b = false

private theorem splice_of_isField (hv : IsField v) :
    ShellState.splice ⟨m, ws, none⟩ v = ⟨m, ws, some v⟩ := by
  have hpush : ∀ (x : Text) (v : Text), (∀ b ∈ v, isIfs b = false) →
      ShellState.splice ⟨m, ws, some x⟩ v = ⟨m, ws, some (x ++ v)⟩ := by
    intro x v hv
    induction v generalizing x with
    | nil => simp [ShellState.splice]
    | cons b v ih =>
      have hstep : ShellState.splice ⟨m, ws, some x⟩ (b :: v) =
          ShellState.splice ⟨m, ws, some (x ++ [b])⟩ v := by
        simp [ShellState.splice, hv b List.mem_cons_self, ShellState.push]
      rw [hstep, ih _ (fun c hc ↦ hv c (List.mem_cons_of_mem b hc)), List.append_assoc]
      rfl
  obtain ⟨hne, hifs⟩ := hv
  cases v with
  | nil => exact absurd rfl hne
  | cons b v =>
    have hstep : ShellState.splice ⟨m, ws, none⟩ (b :: v) =
        ShellState.splice ⟨m, ws, some [b]⟩ v := by
      simp [ShellState.splice, hifs b List.mem_cons_self, ShellState.push]
    rw [hstep, hpush _ _ (fun c hc ↦ hifs c (List.mem_cons_of_mem b hc))]
    rfl

/-- A parameter whose value is one field is that value. -/
theorem spells_parameter {b : UInt8} {name : Text} (hb : isNameStart b = true)
    (hname : ∀ c ∈ name, isNameByte c = true) (hv : IsField (env.parameter (b :: name))) :
    Spells env (36 :: b :: name) (env.parameter (b :: name)) := by
  intro ws _
  have hread : ∀ (x name : Text), x ≠ [] → (∀ c ∈ name, isNameByte c = true) →
      name.foldlM (ShellState.step env) ⟨.parameter x, ws, none⟩ =
        some ⟨.parameter (x ++ name), ws, none⟩ := by
    intro x name hx hname
    induction name generalizing x with
    | nil => simp
    | cons c name ih =>
      have hstep : ShellState.step env ⟨.parameter x, ws, none⟩ c =
          some ⟨.parameter (x ++ [c]), ws, none⟩ := by
        simp [ShellState.step, hx, hname c List.mem_cons_self, ShellState.enter]
      rw [List.foldlM_cons, hstep]
      change name.foldlM (ShellState.step env) ⟨.parameter (x ++ [c]), ws, none⟩ = _
      rw [ih _ (by simp) (fun c hc ↦ hname c (List.mem_cons_of_mem _ hc)), List.append_assoc]
      rfl
  refine ⟨⟨.parameter (b :: name), ws, none⟩, ?_, ?_, ?_⟩
  · have hstart : ShellState.step env ⟨.parameter [], ws, none⟩ b =
        some ⟨.parameter [b], ws, none⟩ := by
      simp [ShellState.step, hb, ShellState.enter]
    rw [List.foldlM_cons]
    change (b :: name).foldlM (ShellState.step env) ⟨.parameter [], ws, none⟩ = _
    rw [List.foldlM_cons, hstart]
    exact hread [b] name (by simp) hname
  · simp [ShellState.step, ShellState.enter, splice_of_isField hv, ShellState.plainStep,
      ShellState.close, isShellBlank, isNameByte, isNameStart, isDigit]
  · simp [ShellState.finish, ShellState.enter, splice_of_isField hv, ShellState.close]

/-- A command substitution whose output is one field is that output. -/
theorem spells_command {text : Text} (htext : 96 ∉ text) (hv : IsField (env.output text)) :
    Spells env (96 :: text ++ [96]) (env.output text) := by
  intro ws _
  have hread : ∀ x text : Text, 96 ∉ text →
      text.foldlM (ShellState.step env) ⟨.command x, ws, none⟩ =
        some ⟨.command (x ++ text), ws, none⟩ := by
    intro x text htext
    induction text generalizing x with
    | nil => simp
    | cons c text ih =>
      rw [List.mem_cons, not_or] at htext
      have hstep : ShellState.step env ⟨.command x, ws, none⟩ c =
          some ⟨.command (x ++ [c]), ws, none⟩ := by
        simp [ShellState.step, Ne.symm htext.1, ShellState.enter]
      rw [List.foldlM_cons, hstep]
      change text.foldlM (ShellState.step env) ⟨.command (x ++ [c]), ws, none⟩ = _
      rw [ih _ htext.2, List.append_assoc]
      rfl
  refine ⟨⟨.plain, ws, some (env.output text)⟩, ?_, ends_plain ws _⟩
  rw [List.cons_append, List.foldlM_cons]
  change (text ++ [96]).foldlM (ShellState.step env) ⟨.command [], ws, none⟩ = _
  rw [List.foldlM_append, hread [] text htext]
  simp [ShellState.step, ShellState.enter, splice_of_isField hv]

/-! ### Commands -/

private theorem exists_ends {xs vs : List Text} (h : List.Forall₂ (Spells env) xs vs)
    {t : ShellState} {ws : List Text} (hws : ws ≠ []) (ht : Ends env t ws) :
    ∃ t', (xs.flatMap (32 :: ·)).foldlM (ShellState.step env) t = some t' ∧
      Ends env t' (ws ++ vs) := by
  induction h generalizing t ws with
  | nil => exact ⟨t, rfl, by rwa [List.append_nil]⟩
  | @cons x v xs vs hx _ ih =>
    obtain ⟨t', hread, hends⟩ := hx ws hws
    obtain ⟨t'', hrest, hlast⟩ := ih (by simp) hends
    refine ⟨t'', ?_, by rwa [List.append_assoc] at hlast⟩
    rw [List.flatMap_cons, List.cons_append, List.foldlM_cons, ht.blank]
    change (x ++ xs.flatMap (32 :: ·)).foldlM (ShellState.step env) ⟨.plain, ws, none⟩ = _
    rw [List.foldlM_append, hread]
    exact hrest

private theorem exists_read (hw : ∀ b ∈ w, isPlain b = true) (hne : w ≠ []) {xs vs : List Text}
    (h : List.Forall₂ (Spells env) xs vs) :
    ∃ t, (w ++ xs.flatMap (32 :: ·)).foldlM (ShellState.step env) ⟨.plain, [], none⟩ = some t ∧
      Ends env t (w :: vs) := by
  obtain ⟨t, hread, hends⟩ := exists_ends h (List.cons_ne_nil w []) (ends_plain [] w)
  refine ⟨t, ?_, hends⟩
  rw [List.foldlM_append, foldlM_of_isPlain hw hne]
  exact hread

/-- Words written one blank apart, after a first word of plain bytes. -/
theorem shellWords_eq (hw : ∀ b ∈ w, isPlain b = true) (hne : w ≠ []) {xs vs : List Text}
    (h : List.Forall₂ (Spells env) xs vs) :
    shellWords env (w ++ xs.flatMap (32 :: ·)) = some (w :: vs) := by
  obtain ⟨t, hread, hends⟩ := exists_read hw hne h
  rw [shellWords, hread]
  exact hends.finish

/-- The same command in the background. -/
theorem shellWords_background (hw : ∀ b ∈ w, isPlain b = true) (hne : w ≠ [])
    {xs vs : List Text} (h : List.Forall₂ (Spells env) xs vs) :
    shellWords env (w ++ xs.flatMap (32 :: ·) ++ [32, 38]) = some (w :: vs) := by
  obtain ⟨t, hread, hends⟩ := exists_read hw hne h
  have hlast : [32, 38].foldlM (ShellState.step env) t = some ⟨.background, w :: vs, none⟩ := by
    rw [List.foldlM_cons, hends.blank]
    simp [ShellState.step, ShellState.plainStep, isShellBlank, ShellState.close, ShellState.enter]
  rw [shellWords, List.foldlM_append, hread, Option.bind_eq_bind, Option.bind_some, hlast]
  simp [ShellState.finish, ShellState.close]

end Reader

end NatcpSpec.Base
