import Mathlib.Data.List.TakeWhile

/-!
# Patterns

Regular expressions with groups. A search tries the places of a text from left to right, and at
each of them the choices and repetitions of the pattern in a fixed order; the first match that it
comes to is preferred. A repetition tries the shortest text first.

* `Pattern`, `Pattern.attempts`: a pattern, and its matches at one place in order of preference;
* `Pattern.search`, `Pattern.find?`: its matches at all places, and the one that is preferred;
* `Pattern.Takes`: which texts a pattern takes, in any order;
* **`Pattern.mem_attempts`**: the attempts are all texts that it takes;
* `Pattern.search_start`: a pattern that begins with the start of the text.
-/

namespace X86

/-- A regular expression over characters, anchored or not. -/
inductive Pattern where
  /-- the start of the text -/
  | start
  /-- the end of the text -/
  | stop
  /-- one character of a class -/
  | one (ranges : List (Char × Char))
  /-- some characters of a class, the fewest ones first -/
  | few (ranges : List (Char × Char))
  | text (cs : List Char)
  | seq (x y : Pattern)
  /-- one of two patterns, of which the first one is tried first -/
  | or (x y : Pattern)
  | group (name : String) (x : Pattern)

namespace Pattern

/-- The texts that the groups of a pattern take. -/
abbrev Groups := List (String × List Char)

/-- A match at some place of a text. -/
structure Match where
  taken : List Char
  rest : List Char
  groups : Groups

def inClass (ranges : List (Char × Char)) (c : Char) : Bool :=
  ranges.any fun r => r.1 ≤ c && c ≤ r.2

/-- The ways to take characters of a class from the front of a text, the shortest one first. -/
def fewest (p : Char → Bool) : List Char → List Match
  | [] => [⟨[], [], []⟩]
  | c :: cs =>
    ⟨[], c :: cs, []⟩ ::
      if p c then (fewest p cs).map fun m => ⟨c :: m.taken, m.rest, m.groups⟩ else []

/-- The matches at one place of a text in order of preference. -/
def attempts : Pattern → (atStart : Bool) → List Char → List Match
  | start, b, cs => if b then [⟨[], cs, []⟩] else []
  | stop, _, cs => if cs = [] then [⟨[], [], []⟩] else []
  | one _, _, [] => []
  | one rs, _, c :: cs => if inClass rs c then [⟨[c], cs, []⟩] else []
  | few rs, _, cs => fewest (inClass rs) cs
  | text t, _, cs => if t <+: cs then [⟨t, cs.drop t.length, []⟩] else []
  | seq x y, b, cs =>
    (x.attempts b cs).flatMap fun m =>
      (y.attempts (b && m.taken.isEmpty) m.rest).map fun n =>
        ⟨m.taken ++ n.taken, n.rest, m.groups ++ n.groups⟩
  | or x y, b, cs => x.attempts b cs ++ y.attempts b cs
  | group name x, b, cs =>
    (x.attempts b cs).map fun m => ⟨m.taken, m.rest, (name, m.taken) :: m.groups⟩

/-- The matches at all places of a text, the leftmost ones first. -/
def search (x : Pattern) : (atStart : Bool) → List Char → List Match
  | b, [] => x.attempts b []
  | b, c :: cs => x.attempts b (c :: cs) ++ x.search false cs

/-- The match that is preferred. -/
def find? (x : Pattern) (s : String) : Option Match :=
  (x.search true s.toList).head?

/-! ## What a pattern takes -/

/-- Whether a pattern can take a text that another one follows, and what its groups take then. -/
def Takes : Pattern → (atStart : Bool) → (taken rest : List Char) → Groups → Prop
  | start, b, t, _, g => b ∧ t = [] ∧ g = []
  | stop, _, t, r, g => t = [] ∧ r = [] ∧ g = []
  | one rs, _, t, _, g => (∃ c, inClass rs c ∧ t = [c]) ∧ g = []
  | few rs, _, t, _, g => (∀ c ∈ t, inClass rs c) ∧ g = []
  | text u, _, t, _, g => t = u ∧ g = []
  | seq x y, b, t, r, g => ∃ t₁ g₁ t₂ g₂, x.Takes b t₁ (t₂ ++ r) g₁ ∧
      y.Takes (b && t₁.isEmpty) t₂ r g₂ ∧ t = t₁ ++ t₂ ∧ g = g₁ ++ g₂
  | or x y, b, t, r, g => x.Takes b t r g ∨ y.Takes b t r g
  | group name x, b, t, r, g => ∃ g', x.Takes b t r g' ∧ g = (name, t) :: g'

variable {x y : Pattern} {p : Char → Bool} {b : Bool} {cs : List Char} {m : Match}

theorem mem_fewest :
    m ∈ fewest p cs ↔ cs = m.taken ++ m.rest ∧ (∀ c ∈ m.taken, p c) ∧ m.groups = [] := by
  obtain ⟨t, r, g⟩ := m
  induction cs generalizing t with
  | nil =>
    rw [fewest, List.mem_singleton, Match.mk.injEq]
    constructor
    · rintro ⟨rfl, rfl, rfl⟩
      exact ⟨rfl, nofun, rfl⟩
    · rintro ⟨h, -, rfl⟩
      obtain ⟨rfl, rfl⟩ := List.append_eq_nil_iff.mp h.symm
      exact ⟨rfl, rfl, rfl⟩
  | cons c cs ih =>
    rw [fewest, List.mem_cons]
    constructor
    · rintro (h | h)
      · cases h
        exact ⟨rfl, nofun, rfl⟩
      · split at h
        · next hc =>
          obtain ⟨⟨t', r', g'⟩, hm, h⟩ := List.mem_map.mp h
          cases h
          obtain ⟨rfl, ht, rfl⟩ := (ih t').mp hm
          exact ⟨rfl, List.forall_mem_cons.mpr ⟨hc, ht⟩, rfl⟩
        · cases h
    · rintro ⟨h, ht, rfl⟩
      cases t with
      | nil => exact .inl (by rw [h]; rfl)
      | cons d t =>
        obtain ⟨rfl, rfl⟩ := List.cons.inj h
        rw [if_pos (ht c List.mem_cons_self)]
        refine .inr (List.mem_map.mpr ⟨⟨t, r, []⟩, (ih t).mpr ⟨rfl, ?_, rfl⟩, rfl⟩)
        exact fun d hd => ht d (List.mem_cons_of_mem _ hd)

/-- **The attempts of a pattern are all that it can take.** -/
theorem mem_attempts :
    m ∈ x.attempts b cs ↔ cs = m.taken ++ m.rest ∧ x.Takes b m.taken m.rest m.groups := by
  induction x generalizing b cs m with
  | start =>
    obtain ⟨t, r, g⟩ := m
    rw [attempts, List.mem_ite_nil_right, List.mem_singleton, Match.mk.injEq]
    constructor
    · rintro ⟨hb, rfl, rfl, rfl⟩
      exact ⟨rfl, hb, rfl, rfl⟩
    · rintro ⟨rfl, hb, rfl, rfl⟩
      exact ⟨hb, rfl, rfl, rfl⟩
  | stop =>
    obtain ⟨t, r, g⟩ := m
    rw [attempts, List.mem_ite_nil_right, List.mem_singleton, Match.mk.injEq]
    constructor
    · rintro ⟨rfl, rfl, rfl, rfl⟩
      exact ⟨rfl, rfl, rfl, rfl⟩
    · rintro ⟨rfl, rfl, rfl, rfl⟩
      exact ⟨rfl, rfl, rfl, rfl⟩
  | one rs =>
    obtain ⟨t, r, g⟩ := m
    cases cs with
    | nil =>
      refine ⟨nofun, ?_⟩
      rintro ⟨h, ⟨c, -, rfl⟩, -⟩
      cases h
    | cons c cs =>
      rw [attempts, List.mem_ite_nil_right, List.mem_singleton, Match.mk.injEq]
      constructor
      · rintro ⟨hc, rfl, rfl, rfl⟩
        exact ⟨rfl, ⟨c, hc, rfl⟩, rfl⟩
      · rintro ⟨h, ⟨d, hd, rfl⟩, rfl⟩
        cases h
        exact ⟨hd, rfl, rfl, rfl⟩
  | few rs => exact mem_fewest
  | text u =>
    obtain ⟨t, r, g⟩ := m
    rw [attempts, List.mem_ite_nil_right, List.mem_singleton, Match.mk.injEq]
    constructor
    · rintro ⟨⟨r', rfl⟩, rfl, rfl, rfl⟩
      exact ⟨by rw [List.drop_left], rfl, rfl⟩
    · rintro ⟨rfl, rfl, rfl⟩
      exact ⟨List.prefix_append t r, rfl, List.drop_left.symm, rfl⟩
  | seq x y ihx ihy =>
    obtain ⟨t, r, g⟩ := m
    simp only [attempts, List.mem_flatMap, List.mem_map, ihx, ihy, Takes, Match.mk.injEq]
    constructor
    · rintro ⟨⟨t₁, r₁, g₁⟩, ⟨rfl, hx⟩, ⟨t₂, r₂, g₂⟩, ⟨h, hy⟩, rfl, rfl, rfl⟩
      subst h
      exact ⟨(List.append_assoc _ _ _).symm, t₁, g₁, t₂, g₂, hx, hy, rfl, rfl⟩
    · rintro ⟨rfl, t₁, g₁, t₂, g₂, hx, hy, rfl, rfl⟩
      exact ⟨⟨t₁, t₂ ++ r, g₁⟩, ⟨List.append_assoc _ _ _, hx⟩, ⟨t₂, r, g₂⟩, ⟨rfl, hy⟩, rfl, rfl,
        rfl⟩
  | or x y ihx ihy =>
    rw [attempts, List.mem_append, ihx, ihy, Takes, and_or_left]
  | group name x ih =>
    obtain ⟨t, r, g⟩ := m
    simp only [attempts, List.mem_map, ih, Takes, Match.mk.injEq]
    constructor
    · rintro ⟨⟨t, r, g⟩, ⟨rfl, hx⟩, rfl, rfl, rfl⟩
      exact ⟨rfl, g, hx, rfl⟩
    · rintro ⟨rfl, g', hx, rfl⟩
      exact ⟨⟨t, r, g'⟩, ⟨rfl, hx⟩, rfl, rfl, rfl⟩

/-! ## Anchored patterns -/

theorem search_start (x : Pattern) (cs : List Char) :
    (start.seq x).search true cs = (start.seq x).attempts true cs := by
  have hnil : ∀ cs, (start.seq x).search false cs = [] := by
    intro cs
    induction cs with
    | nil => rfl
    | cons c cs ih => exact ih
  cases cs with
  | nil => rfl
  | cons c cs => rw [search, hnil, List.append_nil]

end Pattern

end X86
