/-
  Pliron.Lib.Combine

  Parser combinators with committed choice.

  A parser that fails tells whether it has consumed input: only if it has not, the other
  alternative of a choice is tried, and a repetition ends.  `none` is a parser that does not
  return.
-/

import Mathlib.Data.List.Basic
import Mathlib.Tactic

namespace Pliron.Lib.Combine

/-! ## Parsers -/

/-- What a parser returns, and whether it has consumed input. -/
inductive Reply (T E A : Type) where
  | ok (committed : Bool) (value : A) (rest : List T)
  | err (committed : Bool) (error : E)

/-- A parser of tokens `T`. -/
abbrev Parser (T E A : Type) := List T → Option (Reply T E A)

variable {T E A B : Type}

/-- The reply of a parser that runs after another one. -/
def Reply.after (committed : Bool) : Reply T E A → Reply T E A
  | .ok c a rest => .ok (committed || c) a rest
  | .err c e => .err (committed || c) e

/-- The reply of a repetition after its first value. -/
def Reply.cons (committed : Bool) (a : A) : Reply T E (List A) → Reply T E (List A)
  | .ok c as rest => .ok (committed || c) (a :: as) rest
  | .err c e => .err (committed || c) e

namespace Parser

/-- Return a value and consume nothing. -/
def value (a : A) : Parser T E A := fun s => some (.ok false a s)

/-- Run the parser that depends on the value of the first one. -/
def andThen (p : Parser T E A) (f : A → Parser T E B) : Parser T E B := fun s => do
  match ← p s with
  | .ok c a rest => (f a rest).map (Reply.after c)
  | .err c e => some (.err c e)

def map (f : A → B) (p : Parser T E A) : Parser T E B := p.andThen (fun a => value (f a))

/-- Run both parsers and return the second value. -/
def withRight (p : Parser T E A) (q : Parser T E B) : Parser T E B := p.andThen (fun _ => q)

/-- Run both parsers and return the first value. -/
def skip (p : Parser T E A) (q : Parser T E B) : Parser T E A :=
  p.andThen (fun a => q.map (fun _ => a))

def between (opening : Parser T E A) (closing : Parser T E A) (p : Parser T E B) : Parser T E B :=
  (opening.withRight p).skip closing

/-- Try the second parser if the first one fails and consumes nothing. -/
def or (p q : Parser T E A) : Parser T E A := fun s => do
  match ← p s with
  | .err false _ => q s
  | reply => some reply

def optional (p : Parser T E A) : Parser T E (Option A) := or (p.map some) (value none)

/-- Run a parser, and consume nothing if it fails. -/
def attempt (p : Parser T E A) : Parser T E A := fun s => do
  match ← p s with
  | .err _ e => some (.err false e)
  | reply => some reply

/-- Succeed where the parser fails, and consume nothing. -/
def notFollowedBy (unexpected : E) (p : Parser T E A) : Parser T E Unit := fun s => do
  match ← p s with
  | .ok _ _ _ => some (.err false unexpected)
  | .err _ _ => some (.ok false () s)

/-- Convert the value, or fail. -/
def convert (p : Parser T E A) (f : A → Except E B) : Parser T E B := fun s => do
  match ← p s with
  | .ok c a rest =>
      match f a with
      | .ok b => some (.ok c b rest)
      | .error e => some (.err c e)
  | .err c e => some (.err c e)

/-- A value or an error, as if input had been consumed. -/
def result (r : Except E A) : Parser T E A := fun s =>
  match r with
  | .ok a => some (.ok true a s)
  | .error e => some (.err true e)

/-- At most `fuel` runs of a parser, until it fails and consumes nothing. -/
def manyFuel (p : Parser T E A) : Nat → Parser T E (List A)
  | 0, _ => none
  | fuel + 1, s => do
      match ← p s with
      | .ok c a rest => (manyFuel p fuel rest).map (Reply.cons c a)
      | .err true e => some (.err true e)
      | .err false _ => some (.ok false [] s)

/-- Run a parser until it fails and consumes nothing; every run has to consume input. -/
def many (p : Parser T E A) : Parser T E (List A) := fun s => manyFuel p (s.length + 1) s

def many1 (p : Parser T E A) : Parser T E (List A) :=
  p.andThen (fun a => (many p).map (a :: ·))

/-- Values that are separated by what `separator` parses. -/
def sepBy (p : Parser T E A) (separator : Parser T E B) : Parser T E (List A) :=
  or (p.andThen (fun a => (many (separator.withRight p)).map (a :: ·))) (value [])

variable (unexpected : E)

/-- A token that passes a test. -/
def satisfy (f : T → Bool) : Parser T E T
  | [] => some (.err false unexpected)
  | t :: rest => if f t then some (.ok true t rest) else some (.err false unexpected)

def token [BEq T] (t : T) : Parser T E T := satisfy unexpected (· == t)

/-- The given tokens, one after the other. -/
def tokens [BEq T] : List T → Parser T E Unit
  | [] => value ()
  | t :: ts => (token unexpected t).withRight (tokens ts)

end Parser

open Pliron.Lib.Combine.Parser

/-! ## What is read -/

/-- The parser returns `a` and stops at `rest`. -/
def Reads (p : Parser T E A) (s : List T) (a : A) (rest : List T) : Prop :=
  ∃ c, p s = some (.ok c a rest)

/-- The parser fails and consumes nothing. -/
def Rejects (p : Parser T E A) (s : List T) : Prop := ∃ e, p s = some (.err false e)

variable {p p' : Parser T E A} {q : Parser T E B} {f : A → Parser T E B} {a : A} {b : B}
  {s rest rest' : List T} {unexpected : E}

theorem Reads.value : Reads (T := T) (E := E) (Parser.value a) s a s := ⟨false, rfl⟩

theorem Reads.result : Reads (T := T) (E := E) (Parser.result (.ok a)) s a s := ⟨true, rfl⟩

theorem Reads.andThen (hp : Reads p s a rest) (hf : Reads (f a) rest b rest') :
    Reads (p.andThen f) s b rest' := by
  obtain ⟨c, hp⟩ := hp
  obtain ⟨c', hf⟩ := hf
  refine ⟨c || c', ?_⟩
  simp only [Parser.andThen, hp, hf, Option.bind_eq_bind, Option.bind_some, Option.map_some,
    Reply.after]

theorem Reads.map {g : A → B} (hp : Reads p s a rest) : Reads (p.map g) s (g a) rest :=
  hp.andThen Reads.value

theorem Reads.withRight (hp : Reads p s a rest) (hq : Reads q rest b rest') :
    Reads (p.withRight q) s b rest' := hp.andThen hq

theorem Reads.skip (hp : Reads p s a rest) (hq : Reads q rest b rest') :
    Reads (p.skip q) s a rest' := hp.andThen hq.map

theorem Reads.between {o c : Parser T E A} {a' : A} {rest₁ rest₂ : List T} (ho : Reads o s a rest₁)
    (hq : Reads q rest₁ b rest₂) (hc : Reads c rest₂ a' rest) :
    Reads (Parser.between o c q) s b rest := (ho.withRight hq).skip hc

theorem Reads.or_left (hp : Reads p s a rest) : Reads (p.or p') s a rest := by
  obtain ⟨c, hp⟩ := hp
  exact ⟨c, by simp only [Parser.or, hp, Option.bind_eq_bind, Option.bind_some]⟩

theorem Reads.or_right (hp : Rejects p s) (hp' : Reads p' s a rest) :
    Reads (p.or p') s a rest := by
  obtain ⟨e, hp⟩ := hp
  obtain ⟨c, hp'⟩ := hp'
  exact ⟨c, by simp only [Parser.or, hp, hp', Option.bind_eq_bind, Option.bind_some]⟩

theorem Reads.optional_some (hp : Reads p s a rest) : Reads p.optional s (some a) rest :=
  hp.map.or_left

theorem Rejects.andThen (hp : Rejects p s) : Rejects (p.andThen f) s := by
  obtain ⟨e, hp⟩ := hp
  exact ⟨e, by simp only [Parser.andThen, hp, Option.bind_eq_bind, Option.bind_some]⟩

/-- A parser that consumes nothing, and then one that fails. -/
theorem Rejects.andThen_right (hp : p s = some (.ok false a s)) (hf : Rejects (f a) s) :
    Rejects (p.andThen f) s := by
  obtain ⟨e, hf⟩ := hf
  refine ⟨e, ?_⟩
  simp only [Parser.andThen, hp, hf, Option.bind_eq_bind, Option.bind_some, Option.map_some,
    Reply.after, Bool.false_or]

theorem Rejects.map {g : A → B} (hp : Rejects p s) : Rejects (p.map g) s := hp.andThen

theorem Rejects.withRight (hp : Rejects p s) : Rejects (p.withRight q) s := hp.andThen

theorem Rejects.skip (hp : Rejects p s) : Rejects (p.skip q) s := hp.andThen

theorem Rejects.between {o c : Parser T E A} (ho : Rejects o s) :
    Rejects (Parser.between o c q) s := ho.withRight.skip

theorem Rejects.or (hp : Rejects p s) (hp' : Rejects p' s) : Rejects (p.or p') s := by
  obtain ⟨e, hp⟩ := hp
  obtain ⟨e', hp'⟩ := hp'
  exact ⟨e', by simp only [Parser.or, hp, hp', Option.bind_eq_bind, Option.bind_some]⟩

theorem Reads.optional_none (hp : Rejects p s) : Reads p.optional s none s :=
  Reads.or_right hp.map Reads.value

theorem Reads.convert {g : A → Except E B} (hp : Reads p s a rest) (hg : g a = .ok b) :
    Reads (p.convert g) s b rest := by
  obtain ⟨c, hp⟩ := hp
  exact ⟨c, by simp only [Parser.convert, hp, hg, Option.bind_eq_bind, Option.bind_some]⟩

theorem Rejects.convert {g : A → Except E B} (hp : Rejects p s) : Rejects (p.convert g) s := by
  obtain ⟨e, hp⟩ := hp
  exact ⟨e, by simp only [Parser.convert, hp, Option.bind_eq_bind, Option.bind_some]⟩

theorem Reads.attempt (hp : Reads p s a rest) : Reads p.attempt s a rest := by
  obtain ⟨c, hp⟩ := hp
  exact ⟨c, by simp only [Parser.attempt, hp, Option.bind_eq_bind, Option.bind_some]⟩

/-- A parser that fails, whether or not it has consumed input. -/
theorem Rejects.attempt {c : Bool} {e : E} (hp : p s = some (.err c e)) :
    Rejects p.attempt s :=
  ⟨e, by simp only [Parser.attempt, hp, Option.bind_eq_bind, Option.bind_some]⟩

/-- The second of two parsers fails. -/
theorem Reads.err_skip {q : Parser T E B} (hp : Reads p s a rest) (hq : Rejects q rest) :
    ∃ c e, p.skip q s = some (.err c e) := by
  obtain ⟨c, hp⟩ := hp
  obtain ⟨e, hq⟩ := hq
  refine ⟨c || false, e, ?_⟩
  simp only [Parser.skip, Parser.map, Parser.andThen, hp, hq, Option.bind_eq_bind,
    Option.bind_some, Option.map_some, Reply.after]

theorem err_andThen {c : Bool} {e : E} (hp : p s = some (.err c e)) :
    p.andThen f s = some (.err c e) := by
  simp only [Parser.andThen, hp, Option.bind_eq_bind, Option.bind_some]

theorem Reads.notFollowedBy (hp : Rejects p s) :
    Reads (Parser.notFollowedBy unexpected p) s () s := by
  obtain ⟨e, hp⟩ := hp
  exact ⟨false, by simp only [Parser.notFollowedBy, hp, Option.bind_eq_bind, Option.bind_some]⟩

theorem Rejects.notFollowedBy (hp : Reads p s a rest) :
    Rejects (Parser.notFollowedBy unexpected p) s := by
  obtain ⟨c, hp⟩ := hp
  exact ⟨unexpected, by
    simp only [Parser.notFollowedBy, hp, Option.bind_eq_bind, Option.bind_some]⟩

theorem Reads.satisfy {g : T → Bool} {t : T} (h : g t = true) :
    Reads (Parser.satisfy unexpected g) (t :: rest) t rest :=
  ⟨true, if_pos h⟩

theorem Rejects.satisfy {g : T → Bool} (h : ∀ t ∈ s.head?, g t = false) :
    Rejects (Parser.satisfy unexpected g) s := by
  cases s with
  | nil => exact ⟨unexpected, rfl⟩
  | cons t s =>
      refine ⟨unexpected, if_neg ?_⟩
      rw [h t rfl]
      exact Bool.false_ne_true

section Tokens

variable [BEq T] [LawfulBEq T] {t : T}

theorem Reads.token : Reads (Parser.token unexpected t) (t :: rest) t rest :=
  Reads.satisfy BEq.rfl

omit [LawfulBEq T] in
theorem Rejects.token [LawfulBEq T] (h : ∀ t' ∈ s.head?, t' ≠ t) :
    Rejects (Parser.token unexpected t) s :=
  Rejects.satisfy (fun t' ht' => beq_false_of_ne (h t' ht'))

theorem Reads.tokens (ts : List T) :
    Reads (Parser.tokens unexpected ts) (ts ++ rest) () rest := by
  induction ts with
  | nil => exact Reads.value
  | cons t ts ih => exact Reads.token.withRight ih

theorem Rejects.tokens {ts : List T} (h : ∀ t' ∈ s.head?, t' ≠ t) :
    Rejects (Parser.tokens unexpected (t :: ts)) s := (Rejects.token h).withRight

/-- The tokens are not what the input begins with. -/
theorem err_tokens (unexpected : E) {ts : List T} (h : ¬ ts <+: s) :
    ∃ c e, Parser.tokens unexpected ts s = some (.err c e) := by
  induction ts generalizing s with
  | nil => exact absurd List.nil_prefix h
  | cons t ts ih =>
      cases s with
      | nil => exact ⟨false, unexpected, rfl⟩
      | cons t' s =>
          by_cases ht : t' = t
          · subst ht
            have hrest : ¬ ts <+: s := fun hp => h (List.cons_prefix_cons.mpr ⟨rfl, hp⟩)
            obtain ⟨c, e, herr⟩ := ih hrest
            refine ⟨true, e, ?_⟩
            simp only [Parser.tokens, Parser.withRight, Parser.andThen, Parser.token,
              Parser.satisfy, BEq.rfl, if_true, Option.bind_eq_bind, Option.bind_some, herr,
              Option.map_some, Reply.after, Bool.true_or]
          · have hreject : Rejects (Parser.tokens unexpected (t :: ts)) (t' :: s) :=
              Rejects.tokens (fun t'' h' => by rwa [← Option.some.inj h'])
            exact ⟨false, hreject⟩

end Tokens

/-! ## Repetition -/

/-- More fuel does not change what is returned. -/
theorem manyFuel_mono {n n' : Nat} {reply : Reply T E (List A)} (h : manyFuel p n s = some reply)
    (hn : n ≤ n') : manyFuel p n' s = some reply := by
  induction n generalizing n' s reply with
  | zero => exact absurd h nofun
  | succ n ih =>
      obtain ⟨n', rfl⟩ : ∃ m, n' = m + 1 := ⟨n' - 1, by omega⟩
      rw [manyFuel] at h ⊢
      obtain ⟨first, hfirst, h⟩ := Option.bind_eq_some_iff.mp h
      simp only [hfirst, Option.bind_eq_bind, Option.bind_some]
      cases first with
      | err c e =>
          cases c with
          | true => exact h
          | false => exact h
      | ok c a rest =>
          obtain ⟨reply', hreply', h⟩ := Option.map_eq_some_iff.mp h
          simp only [ih hreply' (Nat.le_of_succ_le_succ hn), Option.map_some, h]

theorem many_eq_nil (hp : Rejects p s) : many p s = some (.ok false [] s) := by
  obtain ⟨e, hp⟩ := hp
  simp only [many, manyFuel, hp, Option.bind_eq_bind, Option.bind_some]

theorem Reads.many_nil (hp : Rejects p s) : Reads (many p) s [] s := ⟨false, many_eq_nil hp⟩

theorem Reads.many_cons {as : List A} (hp : Reads p s a rest) (hlt : rest.length < s.length)
    (hrest : Reads (many p) rest as rest') : Reads (many p) s (a :: as) rest' := by
  obtain ⟨c, hp⟩ := hp
  obtain ⟨c', hrest⟩ := hrest
  refine ⟨c || c', ?_⟩
  have hmore := manyFuel_mono hrest (show rest.length + 1 ≤ s.length by omega)
  simp only [many, manyFuel, hp, hmore, Option.bind_eq_bind, Option.bind_some, Option.map_some,
    Reply.cons]

theorem Reads.many1 {as : List A} (hp : Reads p s a rest) (hrest : Reads (many p) rest as rest') :
    Reads (many1 p) s (a :: as) rest' := hp.andThen hrest.map

/-- The tokens that pass a test, up to the first one that does not. -/
theorem Reads.many_satisfy {g : T → Bool} (ts : List T) (hts : ∀ t ∈ ts, g t = true)
    (hrest : ∀ t ∈ rest.head?, g t = false) :
    Reads (many (Parser.satisfy unexpected g)) (ts ++ rest) ts rest := by
  induction ts with
  | nil => exact Reads.many_nil (Rejects.satisfy hrest)
  | cons t ts ih =>
      exact Reads.many_cons (Reads.satisfy (hts t List.mem_cons_self)) (Nat.lt_succ_self _)
        (ih (fun t' ht' => hts t' (List.mem_cons_of_mem _ ht')))

theorem Reads.many1_satisfy {g : T → Bool} {ts : List T} (hne : ts ≠ [])
    (hts : ∀ t ∈ ts, g t = true) (hrest : ∀ t ∈ rest.head?, g t = false) :
    Reads (Parser.many1 (Parser.satisfy unexpected g)) (ts ++ rest) ts rest := by
  cases ts with
  | nil => exact absurd rfl hne
  | cons t ts =>
      exact (Reads.satisfy (hts t List.mem_cons_self)).many1
        (Reads.many_satisfy ts (fun t' ht' => hts t' (List.mem_cons_of_mem _ ht')) hrest)

theorem Reads.sepBy_cons {separator : Parser T E B} {as : List A} (hp : Reads p s a rest)
    (hrest : Reads (many (separator.withRight p)) rest as rest') :
    Reads (sepBy p separator) s (a :: as) rest' := (hp.andThen hrest.map).or_left

theorem Reads.sepBy_nil {separator : Parser T E B} (hp : Rejects p s) :
    Reads (sepBy p separator) s [] s := Reads.or_right hp.andThen Reads.value

/-! ## What has been read -/

section Inversion

variable {a' : A} {c : Bool} {e : E}

theorem Reads.unique (h : Reads p s a rest) (h' : Reads p s a' rest') : a' = a ∧ rest' = rest := by
  obtain ⟨c, h⟩ := h
  obtain ⟨c', h'⟩ := h'
  obtain ⟨_, ha, hrest⟩ := Reply.ok.inj (Option.some.inj (h.symm.trans h'))
  exact ⟨ha.symm, hrest.symm⟩

theorem Reads.not_err (h : Reads p s a rest) : p s ≠ some (.err c e) := by
  obtain ⟨c', h⟩ := h
  rw [h]
  exact nofun

theorem Reads.of_value (h : Reads (E := E) (Parser.value a) s a' rest) : a' = a ∧ rest = s :=
  Reads.value.unique h

theorem Reads.of_andThen (h : Reads (p.andThen f) s b rest') :
    ∃ a rest, Reads p s a rest ∧ Reads (f a) rest b rest' := by
  obtain ⟨c, h⟩ := h
  obtain ⟨reply, hreply, h'⟩ := Option.bind_eq_some_iff.mp h
  cases reply with
  | err c e => exact absurd h' nofun
  | ok c' a rest =>
      obtain ⟨reply', hreply', hafter⟩ := Option.map_eq_some_iff.mp h'
      cases reply' with
      | err c e => exact absurd hafter nofun
      | ok c₂ b₂ rest₂ =>
          obtain ⟨_, rfl, rfl⟩ := Reply.ok.inj hafter
          exact ⟨a, rest, ⟨c', hreply⟩, c₂, hreply'⟩

theorem Reads.of_map {g : A → B} (h : Reads (p.map g) s b rest) :
    ∃ a, Reads p s a rest ∧ b = g a := by
  obtain ⟨a, rest₁, hp, hvalue⟩ := h.of_andThen
  obtain ⟨rfl, rfl⟩ := hvalue.of_value
  exact ⟨a, hp, rfl⟩

theorem Reads.of_withRight (h : Reads (p.withRight q) s b rest') :
    ∃ a rest, Reads p s a rest ∧ Reads q rest b rest' := h.of_andThen

theorem Reads.of_skip (h : Reads (p.skip q) s a rest') :
    ∃ b rest, Reads p s a rest ∧ Reads q rest b rest' := by
  obtain ⟨a', rest, hp, hq⟩ := h.of_andThen
  obtain ⟨b, hread, rfl⟩ := hq.of_map
  exact ⟨b, rest, hp, hread⟩

theorem Reads.of_between {o c : Parser T E A} (h : Reads (Parser.between o c q) s b rest') :
    ∃ a rest₁ rest₂ a', Reads o s a rest₁ ∧ Reads q rest₁ b rest₂ ∧ Reads c rest₂ a' rest' := by
  obtain ⟨a', rest₂, hoq, hc⟩ := h.of_skip
  obtain ⟨a, rest₁, ho, hq⟩ := hoq.of_withRight
  exact ⟨a, rest₁, rest₂, a', ho, hq, hc⟩

theorem Reads.of_or (h : Reads (p.or p') s a rest) :
    Reads p s a rest ∨ (Rejects p s ∧ Reads p' s a rest) := by
  obtain ⟨c, h⟩ := h
  obtain ⟨reply, hreply, h'⟩ := Option.bind_eq_some_iff.mp h
  cases reply with
  | ok c' a' rest' => exact Or.inl ⟨c, hreply.trans h'⟩
  | err c' e =>
      cases c' with
      | true => exact absurd h' nofun
      | false => exact Or.inr ⟨⟨e, hreply⟩, c, h'⟩

theorem Reads.of_convert {g : A → Except E B} (h : Reads (p.convert g) s b rest) :
    ∃ a, Reads p s a rest ∧ g a = .ok b := by
  obtain ⟨c, h⟩ := h
  obtain ⟨reply, hreply, h'⟩ := Option.bind_eq_some_iff.mp h
  cases reply with
  | err c e => exact absurd h' nofun
  | ok c' a rest' =>
      cases hg : g a with
      | error e =>
          simp only [hg] at h'
          exact absurd h' nofun
      | ok b' =>
          simp only [hg] at h'
          obtain ⟨_, rfl, rfl⟩ := Reply.ok.inj (Option.some.inj h')
          exact ⟨a, ⟨c', hreply⟩, hg⟩

theorem Reads.of_satisfy {g : T → Bool} {t : T}
    (h : Reads (Parser.satisfy unexpected g) s t rest) : s = t :: rest ∧ g t = true := by
  obtain ⟨c, h⟩ := h
  cases s with
  | nil => exact absurd h nofun
  | cons t' s =>
      by_cases hg : g t' = true
      · rw [Parser.satisfy, if_pos hg] at h
        obtain ⟨_, rfl, rfl⟩ := Reply.ok.inj (Option.some.inj h)
        exact ⟨rfl, hg⟩
      · rw [Parser.satisfy, if_neg hg] at h
        exact absurd h nofun

theorem Reads.of_token [BEq T] [LawfulBEq T] {t t' : T}
    (h : Reads (Parser.token unexpected t) s t' rest) : s = t :: rest := by
  obtain ⟨hs, ht⟩ := h.of_satisfy
  rwa [eq_of_beq ht] at hs

/-- The values of a repetition, and what each run leaves. -/
inductive ManyReads (p : Parser T E A) : List T → List A → List T → Prop where
  | nil {s : List T} (h : Rejects p s) : ManyReads p s [] s
  | cons {s rest rest' : List T} {a : A} {as : List A} (h : Reads p s a rest)
      (hrest : ManyReads p rest as rest') : ManyReads p s (a :: as) rest'

theorem manyReads_of_manyFuel {n : Nat} {as : List A}
    (h : manyFuel p n s = some (.ok c as rest)) : ManyReads p s as rest := by
  induction n generalizing s c as with
  | zero => exact absurd h nofun
  | succ n ih =>
      obtain ⟨reply, hreply, h'⟩ := Option.bind_eq_some_iff.mp h
      cases reply with
      | err c' e =>
          cases c' with
          | true => exact absurd h' nofun
          | false =>
              obtain ⟨_, rfl, rfl⟩ := Reply.ok.inj (Option.some.inj h')
              exact .nil ⟨e, hreply⟩
      | ok c' a rest₁ =>
          obtain ⟨reply', hreply', hcons⟩ := Option.map_eq_some_iff.mp h'
          cases reply' with
          | err c e => exact absurd hcons nofun
          | ok c₂ as₂ rest₂ =>
              obtain ⟨_, rfl, rfl⟩ := Reply.ok.inj hcons
              exact .cons ⟨c', hreply⟩ (ih hreply')

/-- A repetition only fails where it has consumed input. -/
theorem manyFuel_ne_err_false (n : Nat) (s : List T) (e : E) :
    manyFuel p n s ≠ some (.err false e) := by
  induction n generalizing s with
  | zero => exact nofun
  | succ n ih =>
      intro h
      obtain ⟨reply, hreply, h'⟩ := Option.bind_eq_some_iff.mp h
      cases reply with
      | err c e' =>
          cases c with
          | true => exact absurd h' nofun
          | false => exact absurd h' nofun
      | ok c a rest =>
          obtain ⟨reply', hreply', hcons⟩ := Option.map_eq_some_iff.mp h'
          cases reply' with
          | ok c₂ as₂ rest₂ => exact absurd hcons nofun
          | err c₂ e₂ =>
              obtain ⟨hc, _⟩ := Reply.err.inj hcons
              obtain ⟨_, rfl⟩ := Bool.or_eq_false_iff.mp hc
              exact ih rest (hreply'.trans (by rw [(Reply.err.inj hcons).2]))

theorem Reads.of_many {as : List A} (h : Reads (many p) s as rest) : ManyReads p s as rest := by
  obtain ⟨c, h⟩ := h
  exact manyReads_of_manyFuel h

theorem Reads.of_many1 {as : List A} (h : Reads (Parser.many1 p) s as rest') :
    ∃ a as' rest, as = a :: as' ∧ Reads p s a rest ∧ ManyReads p rest as' rest' := by
  obtain ⟨a, rest, hp, hmany⟩ := h.of_andThen
  obtain ⟨as', hread, rfl⟩ := hmany.of_map
  exact ⟨a, as', rest, rfl, hp, hread.of_many⟩

/-- What a repetition of a test has read, and where it stops. -/
theorem ManyReads.of_satisfy {g : T → Bool} {ts : List T}
    (h : ManyReads (Parser.satisfy unexpected g) s ts rest) :
    s = ts ++ rest ∧ (∀ t ∈ ts, g t = true) ∧ ∀ t ∈ rest.head?, g t = false := by
  induction h with
  | @nil s h =>
      refine ⟨rfl, fun t ht => absurd ht List.not_mem_nil, fun t ht => ?_⟩
      cases s with
      | nil => exact absurd ht nofun
      | cons t' s =>
          rw [← Option.some.inj ht]
          by_contra hg
          have hread : Reads (Parser.satisfy unexpected g) (t' :: s) t' s :=
            Reads.satisfy (Bool.eq_true_of_not_eq_false hg)
          obtain ⟨e, hreject⟩ := h
          exact hread.not_err hreject
  | cons h _ ih =>
      obtain ⟨hs, hg⟩ := h.of_satisfy
      obtain ⟨hrest, hall, hstop⟩ := ih
      refine ⟨by rw [hs, hrest, List.cons_append], fun t ht => ?_, hstop⟩
      obtain rfl | ht := List.mem_cons.mp ht
      · exact hg
      · exact hall t ht

theorem Rejects.of_or (h : Rejects (p.or p') s) : Rejects p s ∧ Rejects p' s := by
  obtain ⟨e, h⟩ := h
  obtain ⟨reply, hreply, h'⟩ := Option.bind_eq_some_iff.mp h
  cases reply with
  | ok c a rest => exact absurd h' nofun
  | err c e' =>
      cases c with
      | true => exact absurd h' nofun
      | false => exact ⟨⟨e', hreply⟩, e, h'⟩

/-- What a parser rejects after another one: the first one has consumed nothing. -/
theorem Rejects.of_andThen (h : Rejects (p.andThen f) s) :
    Rejects p s ∨ ∃ a rest, p s = some (.ok false a rest) ∧ Rejects (f a) rest := by
  obtain ⟨e, h⟩ := h
  obtain ⟨reply, hreply, h'⟩ := Option.bind_eq_some_iff.mp h
  cases reply with
  | err c e' =>
      obtain ⟨rfl, _⟩ := Reply.err.inj (Option.some.inj h')
      exact Or.inl ⟨e', hreply⟩
  | ok c a rest =>
      obtain ⟨reply', hreply', hafter⟩ := Option.map_eq_some_iff.mp h'
      cases reply' with
      | ok c₂ b₂ rest₂ => exact absurd hafter nofun
      | err c₂ e₂ =>
          obtain ⟨hc, _⟩ := Reply.err.inj hafter
          obtain ⟨rfl, rfl⟩ := Bool.or_eq_false_iff.mp hc
          exact Or.inr ⟨a, rest, hreply, e₂, hreply'⟩

theorem Rejects.of_satisfy {g : T → Bool} (h : Rejects (Parser.satisfy unexpected g) s) :
    ∀ t ∈ s.head?, g t = false := by
  intro t ht
  cases s with
  | nil => exact absurd ht nofun
  | cons t' s =>
      rw [← Option.some.inj ht]
      by_contra hg
      obtain ⟨e, h⟩ := h
      exact (Reads.satisfy (Bool.eq_true_of_not_eq_false hg)).not_err h

/-- Where the parser succeeds, it has consumed input. -/
def Commits (p : Parser T E A) : Prop := ∀ s c a rest, p s = some (.ok c a rest) → c = true

theorem Commits.satisfy {g : T → Bool} : Commits (Parser.satisfy unexpected g) := by
  intro s c t rest h
  cases s with
  | nil => exact absurd h nofun
  | cons t' s =>
      by_cases hg : g t' = true
      · rw [Parser.satisfy, if_pos hg] at h
        exact (Reply.ok.inj (Option.some.inj h)).1.symm
      · rw [Parser.satisfy, if_neg hg] at h
        exact absurd h nofun

/-- How two parsers succeed one after the other. -/
theorem ok_of_andThen (h : p.andThen f s = some (.ok c b rest')) :
    ∃ c₁ c₂ a rest, p s = some (.ok c₁ a rest) ∧ f a rest = some (.ok c₂ b rest') ∧
      (c₁ || c₂) = c := by
  obtain ⟨reply, hreply, h'⟩ := Option.bind_eq_some_iff.mp h
  cases reply with
  | err c e => exact absurd h' nofun
  | ok c₁ a rest =>
      obtain ⟨reply', hreply', hafter⟩ := Option.map_eq_some_iff.mp h'
      cases reply' with
      | err c e => exact absurd hafter nofun
      | ok c₂ b₂ rest₂ =>
          obtain ⟨hc, rfl, rfl⟩ := Reply.ok.inj hafter
          exact ⟨c₁, c₂, a, rest, hreply, hreply', hc⟩

theorem Commits.andThen (hp : Commits p) : Commits (p.andThen f) := by
  intro s c b rest' h
  obtain ⟨c₁, c₂, a, rest, hfirst, _, rfl⟩ := ok_of_andThen h
  rw [hp _ _ _ _ hfirst, Bool.true_or]

theorem Commits.andThen_right (hf : ∀ a, Commits (f a)) : Commits (p.andThen f) := by
  intro s c b rest' h
  obtain ⟨c₁, c₂, a, rest, _, hsecond, rfl⟩ := ok_of_andThen h
  rw [hf a _ _ _ _ hsecond, Bool.or_true]

theorem Commits.or (hp : Commits p) (hp' : Commits p') : Commits (p.or p') := by
  intro s c a rest h
  obtain ⟨reply, hreply, h'⟩ := Option.bind_eq_some_iff.mp h
  cases reply with
  | ok c' a' rest' => exact hp s c a rest (hreply.trans h')
  | err c' e =>
      cases c' with
      | true => exact absurd h' nofun
      | false => exact hp' s c a rest h'

/-- A parser that is rejected after one that consumes input where it succeeds. -/
theorem Commits.rejects (hp : Commits p) (h : Rejects (p.andThen f) s) : Rejects p s := by
  obtain h | ⟨a, rest, hok, _⟩ := h.of_andThen
  · exact h
  · exact absurd (hp _ _ _ _ hok) Bool.false_ne_true

/-- A repetition that consumes nothing has no runs. -/
theorem Commits.of_many (hp : Commits p) {as : List A}
    (h : many p s = some (.ok false as rest)) : as = [] ∧ rest = s ∧ Rejects p s := by
  obtain ⟨reply, hreply, h'⟩ := Option.bind_eq_some_iff.mp h
  cases reply with
  | err c e =>
      cases c with
      | true => exact absurd h' nofun
      | false =>
          obtain ⟨_, rfl, rfl⟩ := Reply.ok.inj (Option.some.inj h')
          exact ⟨rfl, rfl, e, hreply⟩
  | ok c a rest₁ =>
      obtain ⟨reply', hreply', hcons⟩ := Option.map_eq_some_iff.mp h'
      cases reply' with
      | err c e => exact absurd hcons nofun
      | ok c₂ as₂ rest₂ =>
          obtain ⟨hc, _, _⟩ := Reply.ok.inj hcons
          rw [hp _ _ _ _ hreply, Bool.true_or] at hc
          exact absurd hc.symm Bool.false_ne_true

theorem Reads.of_sepBy {separator : Parser T E B} {as : List A}
    (h : Reads (sepBy p separator) s as rest') :
    (as = [] ∧ rest' = s ∧ Rejects p s) ∨ ∃ a as' rest, as = a :: as' ∧ Reads p s a rest ∧
      ManyReads (separator.withRight p) rest as' rest' := by
  obtain h | ⟨hreject, h⟩ := h.of_or
  · obtain ⟨a, rest, hp, hmany⟩ := h.of_andThen
    obtain ⟨as', hread, rfl⟩ := hmany.of_map
    exact Or.inr ⟨a, as', rest, rfl, hp, hread.of_many⟩
  · obtain ⟨rfl, rfl⟩ := h.of_value
    refine Or.inl ⟨rfl, rfl, ?_⟩
    obtain hreject | ⟨a, rest, _, hmap⟩ := hreject.of_andThen
    · exact hreject
    · obtain ⟨e, hmany⟩ : Rejects (many (separator.withRight p)) rest := by
        obtain hmany | ⟨_, _, _, hvalue⟩ := hmap.of_andThen
        · exact hmany
        · obtain ⟨e, hvalue⟩ := hvalue
          exact absurd hvalue nofun
      exact absurd hmany (manyFuel_ne_err_false _ _ _)

theorem Reads.of_sepBy_cons {separator : Parser T E B} {as : List A}
    (h : Reads (sepBy p separator) s (a :: as) rest') :
    ∃ rest, Reads p s a rest ∧ ManyReads (separator.withRight p) rest as rest' := by
  obtain h | ⟨_, h⟩ := h.of_or
  · obtain ⟨a', rest, hp, hmany⟩ := h.of_andThen
    obtain ⟨as', hread, heq⟩ := hmany.of_map
    obtain ⟨rfl, rfl⟩ := List.cons.inj heq
    exact ⟨rest, hp, hread.of_many⟩
  · exact absurd h.of_value.1 (List.cons_ne_nil _ _)

end Inversion

/-! ## Parsers that return -/

/-- The parser returns on every input that is shorter than `n`, and leaves a rest of it. -/
def ReturnsBelow (n : Nat) (p : Parser T E A) : Prop :=
  ∀ s, s.length < n → ∃ reply, p s = some reply ∧
    ∀ c a rest, reply = .ok c a rest → rest.length ≤ s.length

/-- The parser returns on every input that is shorter than `n`, and consumes some of it if it
    succeeds. -/
def AdvancesBelow (n : Nat) (p : Parser T E A) : Prop :=
  ∀ s, s.length < n → ∃ reply, p s = some reply ∧
    ∀ c a rest, reply = .ok c a rest → rest.length < s.length

/-- What runs after another parser. -/
theorem andThen_cases {reply : Reply T E A} (hp : p s = some reply) :
    (∃ c a rest, reply = .ok c a rest ∧ p.andThen f s = (f a rest).map (Reply.after c)) ∨
      (∃ c e, reply = .err c e ∧ p.andThen f s = some (.err c e)) := by
  cases reply with
  | ok c a rest =>
      refine Or.inl ⟨c, a, rest, rfl, ?_⟩
      simp only [Parser.andThen, hp, Option.bind_eq_bind, Option.bind_some]
  | err c e =>
      refine Or.inr ⟨c, e, rfl, ?_⟩
      simp only [Parser.andThen, hp, Option.bind_eq_bind, Option.bind_some]

section Below

variable {n : Nat}

theorem AdvancesBelow.returns (h : AdvancesBelow n p) : ReturnsBelow n p := by
  intro s hs
  obtain ⟨reply, hreply, hlt⟩ := h s hs
  exact ⟨reply, hreply, fun c a rest heq => Nat.le_of_lt (hlt c a rest heq)⟩

theorem ReturnsBelow.value : ReturnsBelow (T := T) (E := E) n (Parser.value a) := by
  intro s _
  refine ⟨_, rfl, fun c a' rest h => ?_⟩
  obtain ⟨_, _, rfl⟩ := Reply.ok.inj h
  exact Nat.le_refl _

theorem ReturnsBelow.result {r : Except E A} : ReturnsBelow (T := T) n (Parser.result r) := by
  intro s _
  cases r with
  | error e => exact ⟨_, rfl, fun _ _ _ h => absurd h nofun⟩
  | ok a =>
      refine ⟨_, rfl, fun c a' rest h => ?_⟩
      obtain ⟨_, _, rfl⟩ := Reply.ok.inj h
      exact Nat.le_refl _

theorem ReturnsBelow.andThen (hp : ReturnsBelow n p) (hf : ∀ a, ReturnsBelow n (f a)) :
    ReturnsBelow n (p.andThen f) := by
  intro s hs
  obtain ⟨reply, hreply, hle⟩ := hp s hs
  obtain ⟨c, a, rest, heq, hthen⟩ | ⟨c, e, _, hthen⟩ := andThen_cases (f := f) hreply
  · have hrest := hle _ _ _ heq
    obtain ⟨reply', hreply', hle'⟩ := hf a rest (by omega)
    refine ⟨reply'.after c, by rw [hthen, hreply', Option.map_some], ?_⟩
    intro c' b rest' hok
    cases reply' with
    | err => exact absurd hok nofun
    | ok c₂ b₂ rest₂ =>
        obtain ⟨_, _, rfl⟩ := Reply.ok.inj hok
        exact Nat.le_trans (hle' _ _ _ rfl) hrest
  · exact ⟨_, hthen, fun _ _ _ h => absurd h nofun⟩

theorem AdvancesBelow.andThen (hp : AdvancesBelow n p) (hf : ∀ a, ReturnsBelow n (f a)) :
    AdvancesBelow n (p.andThen f) := by
  intro s hs
  obtain ⟨reply, hreply, hlt⟩ := hp s hs
  obtain ⟨c, a, rest, heq, hthen⟩ | ⟨c, e, _, hthen⟩ := andThen_cases (f := f) hreply
  · have hrest := hlt _ _ _ heq
    obtain ⟨reply', hreply', hle'⟩ := hf a rest (by omega)
    refine ⟨reply'.after c, by rw [hthen, hreply', Option.map_some], ?_⟩
    intro c' b rest' hok
    cases reply' with
    | err => exact absurd hok nofun
    | ok c₂ b₂ rest₂ =>
        obtain ⟨_, _, rfl⟩ := Reply.ok.inj hok
        exact Nat.lt_of_le_of_lt (hle' _ _ _ rfl) hrest
  · exact ⟨_, hthen, fun _ _ _ h => absurd h nofun⟩

/-- The second parser consumes input, on what the first one leaves, which is shorter than `n`. -/
theorem ReturnsBelow.andThen_advances (hp : ReturnsBelow n p) (hf : ∀ a, AdvancesBelow n (f a)) :
    AdvancesBelow n (p.andThen f) := by
  intro s hs
  obtain ⟨reply, hreply, hle⟩ := hp s hs
  obtain ⟨c, a, rest, heq, hthen⟩ | ⟨c, e, _, hthen⟩ := andThen_cases (f := f) hreply
  · have hrest := hle _ _ _ heq
    obtain ⟨reply', hreply', hlt'⟩ := hf a rest (by omega)
    refine ⟨reply'.after c, by rw [hthen, hreply', Option.map_some], ?_⟩
    intro c' b rest' hok
    cases reply' with
    | err => exact absurd hok nofun
    | ok c₂ b₂ rest₂ =>
        obtain ⟨_, _, rfl⟩ := Reply.ok.inj hok
        exact Nat.lt_of_lt_of_le (hlt' _ _ _ rfl) hrest
  · exact ⟨_, hthen, fun _ _ _ h => absurd h nofun⟩

/-- A parser that consumes input, and one that gets a shorter input for that. -/
theorem AdvancesBelow.andThen_shorter (hp : AdvancesBelow (n + 1) p)
    (hf : ∀ a, ReturnsBelow n (f a)) : AdvancesBelow (n + 1) (p.andThen f) := by
  intro s hs
  obtain ⟨reply, hreply, hlt⟩ := hp s hs
  obtain ⟨c, a, rest, heq, hthen⟩ | ⟨c, e, _, hthen⟩ := andThen_cases (f := f) hreply
  · have hrest := hlt _ _ _ heq
    obtain ⟨reply', hreply', hle'⟩ := hf a rest (by omega)
    refine ⟨reply'.after c, by rw [hthen, hreply', Option.map_some], ?_⟩
    intro c' b rest' hok
    cases reply' with
    | err => exact absurd hok nofun
    | ok c₂ b₂ rest₂ =>
        obtain ⟨_, _, rfl⟩ := Reply.ok.inj hok
        exact Nat.lt_of_le_of_lt (hle' _ _ _ rfl) hrest
  · exact ⟨_, hthen, fun _ _ _ h => absurd h nofun⟩

theorem ReturnsBelow.or (hp : ReturnsBelow n p) (hp' : ReturnsBelow n p') :
    ReturnsBelow n (p.or p') := by
  intro s hs
  obtain ⟨reply, hreply, hle⟩ := hp s hs
  obtain ⟨reply', hreply', hle'⟩ := hp' s hs
  cases reply with
  | ok c a rest =>
      exact ⟨_, by simp only [Parser.or, hreply, Option.bind_eq_bind, Option.bind_some], hle⟩
  | err c e =>
      cases c with
      | true => exact ⟨_, by simp only [Parser.or, hreply, Option.bind_eq_bind, Option.bind_some],
          hle⟩
      | false => exact ⟨reply', by simp only [Parser.or, hreply, hreply', Option.bind_eq_bind,
          Option.bind_some], hle'⟩

theorem AdvancesBelow.or (hp : AdvancesBelow n p) (hp' : AdvancesBelow n p') :
    AdvancesBelow n (p.or p') := by
  intro s hs
  obtain ⟨reply, hreply, hlt⟩ := hp s hs
  obtain ⟨reply', hreply', hlt'⟩ := hp' s hs
  cases reply with
  | ok c a rest =>
      exact ⟨_, by simp only [Parser.or, hreply, Option.bind_eq_bind, Option.bind_some], hlt⟩
  | err c e =>
      cases c with
      | true => exact ⟨_, by simp only [Parser.or, hreply, Option.bind_eq_bind, Option.bind_some],
          hlt⟩
      | false => exact ⟨reply', by simp only [Parser.or, hreply, hreply', Option.bind_eq_bind,
          Option.bind_some], hlt'⟩

theorem AdvancesBelow.satisfy {g : T → Bool} : AdvancesBelow n (Parser.satisfy unexpected g) := by
  intro s _
  cases s with
  | nil => exact ⟨_, rfl, fun _ _ _ h => absurd h nofun⟩
  | cons t s =>
      by_cases h : g t = true
      · refine ⟨_, if_pos h, fun c a rest hok => ?_⟩
        obtain ⟨_, _, rfl⟩ := Reply.ok.inj hok
        exact Nat.lt_succ_self _
      · exact ⟨_, if_neg h, fun _ _ _ hok => absurd hok nofun⟩

theorem ReturnsBelow.many (hp : AdvancesBelow n p) : ReturnsBelow n (many p) := by
  have hfuel : ∀ (m : Nat) (s : List T), s.length < m → s.length < n →
      ∃ reply, manyFuel p m s = some reply ∧
        ∀ c as rest, reply = .ok c as rest → rest.length ≤ s.length := by
    intro m
    induction m with
    | zero => exact fun s hs => absurd hs (Nat.not_lt_zero _)
    | succ m ih =>
        intro s hs hn
        obtain ⟨reply, hreply, hlt⟩ := hp s hn
        cases reply with
        | ok c a rest =>
            have hrest := hlt c a rest rfl
            obtain ⟨reply', hreply', hle'⟩ := ih rest (by omega) (by omega)
            refine ⟨reply'.cons c a, by simp only [manyFuel, hreply, hreply',
              Option.bind_eq_bind, Option.bind_some, Option.map_some], fun c' as rest' hok => ?_⟩
            cases reply' with
            | err => exact absurd hok nofun
            | ok c₂ as₂ rest₂ =>
                obtain ⟨_, _, rfl⟩ := Reply.ok.inj hok
                have hle := hle' _ _ _ rfl
                omega
        | err c e =>
            cases c with
            | true => exact ⟨.err true e, by simp only [manyFuel, hreply, Option.bind_eq_bind,
                Option.bind_some], fun _ _ _ hok => absurd hok nofun⟩
            | false =>
                refine ⟨.ok false [] s, by simp only [manyFuel, hreply, Option.bind_eq_bind,
                  Option.bind_some], fun c as rest hok => ?_⟩
                obtain ⟨_, _, rfl⟩ := Reply.ok.inj hok
                exact Nat.le_refl _
  intro s hs
  exact hfuel (s.length + 1) s (Nat.lt_succ_self _) hs

theorem ReturnsBelow.map {g : A → B} (hp : ReturnsBelow n p) : ReturnsBelow n (p.map g) :=
  hp.andThen (fun _ => ReturnsBelow.value)

theorem AdvancesBelow.map {g : A → B} (hp : AdvancesBelow n p) : AdvancesBelow n (p.map g) :=
  hp.andThen (fun _ => ReturnsBelow.value)

theorem AdvancesBelow.withRight (hp : AdvancesBelow n p) (hq : ReturnsBelow n q) :
    AdvancesBelow n (p.withRight q) := hp.andThen (fun _ => hq)

theorem AdvancesBelow.skip (hp : AdvancesBelow n p) (hq : ReturnsBelow n q) :
    AdvancesBelow n (p.skip q) := hp.andThen (fun _ => hq.map)

theorem AdvancesBelow.many1 (hp : AdvancesBelow n p) : AdvancesBelow n (many1 p) :=
  hp.andThen (fun _ => (ReturnsBelow.many hp).map)

theorem ReturnsBelow.optional (hp : ReturnsBelow n p) : ReturnsBelow n p.optional :=
  hp.map.or ReturnsBelow.value

theorem ReturnsBelow.sepBy (hp : AdvancesBelow n p) (hq : AdvancesBelow n q) :
    ReturnsBelow n (sepBy p q) :=
  (hp.andThen (fun _ => (ReturnsBelow.many (hq.withRight hp.returns)).map)).returns.or
    ReturnsBelow.value

end Below

/-- The parser returns on every input, and leaves a rest of it. -/
def Returns (p : Parser T E A) : Prop :=
  ∀ s, ∃ reply, p s = some reply ∧ ∀ c a rest, reply = .ok c a rest → rest.length ≤ s.length

/-- The parser returns on every input, and consumes some of it if it succeeds. -/
def Advances (p : Parser T E A) : Prop :=
  ∀ s, ∃ reply, p s = some reply ∧ ∀ c a rest, reply = .ok c a rest → rest.length < s.length

theorem returns_iff : Returns p ↔ ∀ n, ReturnsBelow n p :=
  ⟨fun h _ s _ => h s, fun h s => h (s.length + 1) s (Nat.lt_succ_self _)⟩

theorem advances_iff : Advances p ↔ ∀ n, AdvancesBelow n p :=
  ⟨fun h _ s _ => h s, fun h s => h (s.length + 1) s (Nat.lt_succ_self _)⟩

theorem Advances.returns (h : Advances p) : Returns p :=
  returns_iff.mpr (fun n => (advances_iff.mp h n).returns)

theorem Returns.value : Returns (T := T) (E := E) (Parser.value a) :=
  returns_iff.mpr (fun _ => ReturnsBelow.value)

theorem Returns.result {r : Except E A} : Returns (T := T) (Parser.result r) :=
  returns_iff.mpr (fun _ => ReturnsBelow.result)

theorem Returns.andThen (hp : Returns p) (hf : ∀ a, Returns (f a)) : Returns (p.andThen f) :=
  returns_iff.mpr (fun n => (returns_iff.mp hp n).andThen (fun a => returns_iff.mp (hf a) n))

theorem Advances.andThen (hp : Advances p) (hf : ∀ a, Returns (f a)) : Advances (p.andThen f) :=
  advances_iff.mpr (fun n => (advances_iff.mp hp n).andThen (fun a => returns_iff.mp (hf a) n))

theorem Advances.or (hp : Advances p) (hp' : Advances p') : Advances (p.or p') :=
  advances_iff.mpr (fun n => (advances_iff.mp hp n).or (advances_iff.mp hp' n))

theorem Advances.satisfy {g : T → Bool} : Advances (Parser.satisfy unexpected g) :=
  advances_iff.mpr (fun _ => AdvancesBelow.satisfy)

theorem Returns.many (hp : Advances p) : Returns (many p) :=
  returns_iff.mpr (fun n => ReturnsBelow.many (advances_iff.mp hp n))

theorem Returns.map {g : A → B} (hp : Returns p) : Returns (p.map g) :=
  hp.andThen (fun _ => Returns.value)

theorem Advances.map {g : A → B} (hp : Advances p) : Advances (p.map g) :=
  hp.andThen (fun _ => Returns.value)

theorem Advances.withRight (hp : Advances p) (hq : Returns q) : Advances (p.withRight q) :=
  hp.andThen (fun _ => hq)

theorem Advances.skip (hp : Advances p) (hq : Returns q) : Advances (p.skip q) :=
  hp.andThen (fun _ => hq.map)

theorem Advances.between {o c : Parser T E A} (ho : Advances o) (hq : Returns q)
    (hc : Returns c) : Advances (Parser.between o c q) := (ho.withRight hq).skip hc

theorem Advances.many1 (hp : Advances p) : Advances (many1 p) :=
  hp.andThen (fun _ => (Returns.many hp).map)

end Pliron.Lib.Combine
