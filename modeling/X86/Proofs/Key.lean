import X86.Table.Key
import X86.Proofs.Pattern

/-!
# The grammar of keys

A key is a mnemonic and a width, with a form between them that may be absent. The mnemonic has no
underscore, and neither has the width. So the first and the last underscore of a text tell which key
it spells, although the form may contain underscores and numbers itself.

* `Key.chars`, `Key.WellFormed`: how a key is written, and the characters of its parts;
* `Key.parse_eq_ok_iff`: the texts that a key is read from;
* `Key.pattern`, `Key.mem_pattern`: the pattern of a key, and all its matches;
* `Key.parse_eq_match`: keys are read as the preferred match of the pattern tells;
* **`Key.grammar`**: reading and writing keys.
-/

namespace X86

namespace Key

variable {cs front back form body : List Char} {k : Key} {s : String} {w : Width}

/-! ## Cutting at the last underscore -/

theorem cutLast_of_not_mem (h : '_' ∉ cs) : cutLast cs = none := by
  induction cs with
  | nil => rfl
  | cons c cs ih =>
    rw [List.mem_cons, not_or] at h
    rw [cutLast, ih h.2, if_neg (Ne.symm h.1)]

theorem cutLast_append (h : '_' ∉ back) : cutLast (front ++ '_' :: back) = some (front, back) := by
  induction front with
  | nil => rw [List.nil_append, cutLast, cutLast_of_not_mem h, if_pos rfl]
  | cons c front ih => rw [List.cons_append, cutLast, ih]

theorem eq_of_cutLast (h : cutLast cs = some (front, back)) : cs = front ++ '_' :: back := by
  induction cs generalizing front with
  | nil => cases h
  | cons c cs ih =>
    rw [cutLast] at h
    split at h
    · next f b hcut =>
      cases h
      rw [ih hcut, List.cons_append]
    · split at h
      · next hc =>
        cases h
        rw [hc, List.nil_append]
      · cases h

/-! ## The grammar of keys -/

/-- A form as it follows a mnemonic: behind an underscore unless it is empty. -/
def formText : List Char → List Char
  | [] => []
  | form => '_' :: form

/-- The characters that a key is written with. -/
def chars (k : Key) : List Char :=
  k.mnemonic.toList ++ formText k.form.toList ++ '_' :: k.width.render.toList

/-- A mnemonic is a capital letter followed by letters and digits, and a form consists of letters,
digits and underscores, all of them in ASCII. -/
structure WellFormed (k : Key) : Prop where
  mnemonic : ∃ c cs, k.mnemonic.toList = c :: cs ∧ c.isUpper ∧ ∀ d ∈ cs, d.isAlphanum
  form : ∀ c ∈ k.form.toList, c.isAlphanum ∨ c = '_'

theorem isMnemonic_iff :
    isMnemonic cs ↔ ∃ c ds, cs = c :: ds ∧ c.isUpper ∧ ∀ d ∈ ds, d.isAlphanum := by
  constructor
  · intro h
    cases cs with
    | nil => cases h
    | cons c ds =>
      rw [isMnemonic, Bool.and_eq_true, List.all_eq_true] at h
      exact ⟨c, ds, rfl, h⟩
  · rintro ⟨c, ds, rfl, h⟩
    rw [isMnemonic, Bool.and_eq_true, List.all_eq_true]
    exact h

theorem isForm_iff : isForm cs ↔ ∀ c ∈ cs, c.isAlphanum ∨ c = '_' := by
  simp [isForm]

theorem width?_eq_some : width? cs = some w ↔ cs = w.render.toList := by
  constructor
  · intro h
    have := List.find?_some h
    simpa [eq_comm] using this
  · rintro rfl
    cases w <;> decide

theorem render_inj {w' : Width} (h : w.render.toList = w'.render.toList) : w = w' :=
  Option.some.inj ((width?_eq_some.mpr rfl).symm.trans (width?_eq_some.mpr h))

theorem not_mem_render (w : Width) : '_' ∉ w.render.toList := by
  cases w <;> decide

theorem cutLast_key (stem : String) (w : Width) :
    cutLast (stem ++ "_" ++ w.render).toList = some (stem.toList, w.render.toList) := by
  rw [String.toList_append, String.toList_append, List.append_assoc]
  exact cutLast_append (not_mem_render w)

theorem mem_formText {c : Char} (h : c ∈ formText form) : c = '_' ∨ c ∈ form := by
  cases form with
  | nil => cases h
  | cons d ds => exact List.mem_cons.mp h

theorem ne_of_isMnemonic (h : isMnemonic cs) : ∀ c ∈ cs, c ≠ '_' := by
  obtain ⟨c, ds, rfl, hc, hd⟩ := isMnemonic_iff.mp h
  rintro d hm rfl
  rcases List.mem_cons.mp hm with rfl | hm
  · exact absurd hc (by decide)
  · exact absurd (hd _ hm) (by decide)

theorem form?_eq_some (hd : ∀ c ∈ cs.head?, c = '_') :
    form? cs = some form ↔ cs = formText form := by
  match cs with
  | [] => cases form <;> simp [form?, formText]
  | [c] => cases form <;> simp [form?, formText]
  | c :: d :: cs =>
    rw [hd c rfl]
    cases form <;> simp [form?, formText]

theorem eq_append_iff {mn : List Char} (h : ∀ c ∈ mn, c ≠ '_') :
    body = mn ++ formText form ↔
      body.takeWhile (· ≠ '_') = mn ∧ form? (body.dropWhile (· ≠ '_')) = some form := by
  have hp : ∀ c ∈ mn, decide (c ≠ '_') = true := fun c hc => decide_eq_true (h c hc)
  have hhead : ∀ c ∈ (body.dropWhile (· ≠ '_')).head?, c = '_' := by
    have := List.head?_dropWhile_not (fun c => decide (c ≠ '_')) body
    intro c hc
    rw [Option.mem_def.mp hc] at this
    simpa using this
  rw [form?_eq_some hhead]
  constructor
  · rintro rfl
    rw [List.takeWhile_append_of_pos hp, List.dropWhile_append_of_pos hp]
    cases form <;> simp [formText]
  · rintro ⟨ht, hd⟩
    rw [← ht, ← hd, List.takeWhile_append_dropWhile]

theorem wellFormed_iff :
    k.WellFormed ↔ isMnemonic k.mnemonic.toList ∧ isForm k.form.toList := by
  rw [isMnemonic_iff, isForm_iff]
  exact ⟨fun h => ⟨h.mnemonic, h.form⟩, fun h => ⟨h.1, h.2⟩⟩

theorem ofChars?_eq_some : ofChars? cs = some k ↔ k.WellFormed ∧ cs = k.chars := by
  rw [wellFormed_iff]
  constructor
  · intro h
    obtain ⟨⟨body, suffix⟩, hcut, h⟩ := Option.bind_eq_some_iff.mp h
    obtain ⟨w, hw, h⟩ := Option.bind_eq_some_iff.mp h
    obtain ⟨form, hform, h⟩ := Option.bind_eq_some_iff.mp h
    split at h
    · next hc =>
      cases h
      rw [Bool.and_eq_true] at hc
      have hbody := (eq_append_iff (ne_of_isMnemonic hc.1)).mpr ⟨rfl, hform⟩
      simp only [chars, String.toList_ofList]
      exact ⟨hc, by rw [eq_of_cutLast hcut, ← hbody, width?_eq_some.mp hw]⟩
    · cases h
  · rintro ⟨hk, rfl⟩
    obtain ⟨ht, hd⟩ := (eq_append_iff (ne_of_isMnemonic hk.1)).mp
      (Eq.refl (k.mnemonic.toList ++ formText k.form.toList))
    have hw := width?_eq_some.mpr (Eq.refl k.width.render.toList)
    rw [ofChars?, chars, cutLast_append (not_mem_render k.width)]
    simp only [Option.bind_eq_bind, Option.bind_some, hw, hd, ht, hk, Bool.and_self, if_true,
      String.ofList_toList]

/-- **What a key is read from.** -/
theorem parse_eq_ok_iff : parse s = .ok k ↔ k.WellFormed ∧ s.toList = k.chars := by
  rw [← ofChars?_eq_some, parse]
  cases ofChars? s.toList <;> simp

/-- Between the first and the last underscore there may be another one, but not nothing. -/
example : parse "ADD___8" = .ok ⟨"ADD", "_", .w8⟩ ∧
    parse "ADD__8" = .error (.malformedKey "ADD__8") := by
  decide

theorem toList_render (k : Key) : k.render.toList = k.chars := by
  rw [render, chars]
  split
  · next h =>
    rw [String.isEmpty_iff.mp h]
    simp [formText]
  · next h =>
    have hform : k.form.toList ≠ [] := fun hn => h (by simpa using hn)
    cases hl : k.form.toList with
    | nil => exact absurd hl hform
    | cons c cs => simp [formText, hl]

/-- A text spells a key: it is the mnemonic and the width or, if there is a form, the mnemonic, the
form and the width, joined by underscores. -/
def Spells (k : Key) (s : String) : Prop :=
  k.WellFormed ∧
    (k.form = "" ∧ s = k.mnemonic ++ "_" ++ toString k.width.bits ∨
      k.form ≠ "" ∧ s = k.mnemonic ++ "_" ++ k.form ++ "_" ++ toString k.width.bits)

theorem spells_iff : k.Spells s ↔ k.WellFormed ∧ s.toList = k.chars := by
  rw [Spells, ← toList_render, String.toList_inj, render]
  refine and_congr_right fun _ => ?_
  by_cases h : k.form = ""
  · simp [h, Width.render]
  · simp [h, Width.render]

theorem parse_eq_ok_iff_spells : parse s = .ok k ↔ k.Spells s := by
  rw [spells_iff, parse_eq_ok_iff]

/-! ## The pattern of keys -/

open Pattern (Groups Takes inClass)

/-- The classes [A-Z] and [A-Za-z0-9], and the latter with the underscore. -/
def upper : List (Char × Char) :=
  [('A', 'Z')]

def alphanumeric : List (Char × Char) :=
  [('A', 'Z'), ('a', 'z'), ('0', '9')]

def word : List (Char × Char) :=
  ('_', '_') :: alphanumeric

/-- One of several texts, tried in their order. -/
def oneOf : List String → Pattern
  | [] => .one []
  | t :: ts => .or (.text t.toList) (oneOf ts)

def mnemonicPattern : Pattern :=
  .group "mn" (.seq (.one upper) (.few alphanumeric))

/-- A form and the underscore in front of it, or nothing. -/
def formPattern : Pattern :=
  .or (.seq (.text ['_']) (.group "form" (.seq (.one word) (.few word)))) (.text [])

/-- The last underscore and the width behind it. -/
def widthPattern : Pattern :=
  .seq (.text ['_']) (.seq (.group "w" (oneOf ["8", "16", "32", "64", "128", "256"])) .stop)

/-- The pattern of a key. -/
def pattern : Pattern :=
  .seq .start (.seq mnemonicPattern (.seq formPattern widthPattern))

/-- The key that the groups of a match make up. -/
def ofGroups? (g : Groups) : Option Key := do
  let mn ← g.lookup "mn"
  let w ← Width.ofBits? (Nat.ofDigitChars 10 (← g.lookup "w") 0)
  return ⟨.ofList mn, .ofList ((g.lookup "form").getD []), w⟩

/-- The group of a form, which is absent if the form is empty. -/
def formGroup : List Char → Groups
  | [] => []
  | form => [("form", form)]

def groups (k : Key) : Groups :=
  ("mn", k.mnemonic.toList) :: (formGroup k.form.toList ++ [("w", k.width.render.toList)])

theorem ofGroups?_groups (k : Key) : ofGroups? k.groups = some k := by
  have hw : Width.ofBits? (Nat.ofDigitChars 10 k.width.render.toList 0) = some k.width := by
    cases k.width <;> decide
  have hwidth : k.groups.lookup "w" = some k.width.render.toList := by
    rw [groups]
    cases k.form.toList <;> rfl
  have hform : (k.groups.lookup "form").getD [] = k.form.toList := by
    rw [groups]
    cases k.form.toList <;> rfl
  have hmn : k.groups.lookup "mn" = some k.mnemonic.toList := rfl
  simp only [ofGroups?, hmn, hwidth, hform, hw, Option.bind_eq_bind, Option.bind_some,
    String.ofList_toList]
  rfl

variable {b : Bool} {t r : List Char} {g : Groups} {c : Char}

theorem isUpper_eq : c.isUpper = ('A' ≤ c && c ≤ 'Z') :=
  Bool.decide_and _ _

theorem inClass_upper : inClass upper c = c.isUpper := by
  rw [isUpper_eq]
  exact Bool.or_false _

theorem inClass_alphanumeric : inClass alphanumeric c = c.isAlphanum := by
  change _ = ((c.isUpper || c.isLower) || c.isDigit)
  rw [isUpper_eq, Bool.or_assoc, ← Bool.or_false c.isDigit]
  rfl

theorem inClass_word : inClass word c = (c.isAlphanum || c == '_') := by
  have hc : ('_' ≤ c && c ≤ '_') = (c == '_') := by
    rw [Bool.eq_iff_iff, Bool.and_eq_true, decide_eq_true_eq, decide_eq_true_eq, beq_iff_eq]
    exact ⟨fun h => Char.le_antisymm h.2 h.1, fun h => ⟨h ▸ Char.le_refl _, h ▸ Char.le_refl _⟩⟩
  rw [← inClass_alphanumeric, ← hc, Bool.or_comm]
  rfl

theorem takes_mnemonicPattern :
    mnemonicPattern.Takes b t r g ↔ isMnemonic t ∧ g = [("mn", t)] := by
  simp only [mnemonicPattern, Takes, isMnemonic_iff, inClass_upper, inClass_alphanumeric]
  constructor
  · rintro ⟨_, ⟨_, _, ds, _, ⟨⟨c, hc, rfl⟩, rfl⟩, ⟨hd, rfl⟩, rfl, rfl⟩, rfl⟩
    exact ⟨⟨c, ds, rfl, hc, hd⟩, rfl⟩
  · rintro ⟨⟨c, ds, rfl, hc, hd⟩, rfl⟩
    exact ⟨[], ⟨[c], [], ds, [], ⟨⟨c, hc, rfl⟩, rfl⟩, ⟨hd, rfl⟩, rfl, rfl⟩, rfl⟩

theorem takes_formPattern :
    formPattern.Takes b t r g ↔ ∃ form, isForm form ∧ t = formText form ∧ g = formGroup form := by
  simp only [formPattern, Takes, inClass_word, isForm, List.all_eq_true]
  constructor
  · rintro (⟨_, _, _, _, ⟨rfl, rfl⟩, ⟨_, ⟨_, _, ds, _, ⟨⟨c, hc, rfl⟩, rfl⟩, ⟨hd, rfl⟩, rfl, rfl⟩,
      rfl⟩, rfl, rfl⟩ | ⟨rfl, rfl⟩)
    · exact ⟨c :: ds, List.forall_mem_cons.mpr ⟨hc, hd⟩, rfl, rfl⟩
    · exact ⟨[], fun d hd => absurd hd List.not_mem_nil, rfl, rfl⟩
  · rintro ⟨form, h, rfl, rfl⟩
    cases form with
    | nil => exact .inr ⟨rfl, rfl⟩
    | cons c ds =>
      obtain ⟨hc, hd⟩ := List.forall_mem_cons.mp h
      exact .inl ⟨['_'], [], c :: ds, _, ⟨rfl, rfl⟩,
        ⟨[], ⟨[c], [], ds, [], ⟨⟨c, hc, rfl⟩, rfl⟩, ⟨hd, rfl⟩, rfl, rfl⟩, rfl⟩, rfl, rfl⟩

theorem takes_oneOf {ts : List String} :
    (oneOf ts).Takes b t r g ↔ (∃ u ∈ ts, t = u.toList) ∧ g = [] := by
  induction ts with
  | nil => simp [oneOf, Takes, inClass]
  | cons u ts ih =>
    rw [oneOf, Takes, Takes, ih, ← or_and_right]
    simp only [List.mem_cons, exists_eq_or_imp]

theorem takes_widthPattern : widthPattern.Takes b t r g ↔
    r = [] ∧ ∃ w : Width, t = '_' :: w.render.toList ∧ g = [("w", w.render.toList)] := by
  have hall : ["8", "16", "32", "64", "128", "256"] = Width.all.map Width.render := by decide
  simp only [widthPattern, Takes, takes_oneOf, hall, List.mem_map, exists_exists_and_eq_and]
  constructor
  · rintro ⟨_, _, _, _, ⟨rfl, rfl⟩, ⟨_, _, _, _, ⟨_, ⟨⟨w, -, rfl⟩, rfl⟩, rfl⟩, ⟨rfl, rfl, rfl⟩,
      rfl, rfl⟩, rfl, rfl⟩
    exact ⟨rfl, w, by rw [List.append_nil]; rfl, rfl⟩
  · rintro ⟨rfl, w, rfl, rfl⟩
    exact ⟨['_'], [], _, _, ⟨rfl, rfl⟩, ⟨_, _, [], [], ⟨[], ⟨⟨w, w.mem_all, rfl⟩, rfl⟩, rfl⟩,
      ⟨rfl, rfl, rfl⟩, (List.append_nil _).symm, rfl⟩, rfl, rfl⟩

/-- **The matches of the pattern** are those of the keys that the text spells. -/
theorem mem_pattern {m : Pattern.Match} :
    m ∈ pattern.attempts true cs ↔
      ∃ k : Key, k.WellFormed ∧ cs = k.chars ∧ m = ⟨cs, [], k.groups⟩ := by
  obtain ⟨t, r, g⟩ := m
  simp only [Pattern.mem_attempts, pattern, Takes, takes_mnemonicPattern, takes_formPattern,
    takes_widthPattern, wellFormed_iff, Pattern.Match.mk.injEq]
  constructor
  · rintro ⟨rfl, _, _, _, _, ⟨-, rfl, rfl⟩, ⟨mn, _, _, _, ⟨hmn, rfl⟩, ⟨_, _, _, _,
      ⟨form, hform, rfl, rfl⟩, ⟨rfl, w, rfl, rfl⟩, rfl, rfl⟩, rfl, rfl⟩, rfl, rfl⟩
    refine ⟨⟨.ofList mn, .ofList form, w⟩, ?_⟩
    simp [hmn, hform, chars, groups]
  · rintro ⟨k, ⟨hmn, hform⟩, rfl, rfl, rfl, rfl⟩
    refine ⟨(List.append_nil _).symm, [], [], k.chars, k.groups, ⟨trivial, rfl, rfl⟩,
      ⟨_, _, _, _, ⟨hmn, rfl⟩, ⟨_, _, _, _, ⟨_, hform, rfl, rfl⟩, ⟨rfl, k.width, rfl, rfl⟩,
        rfl, rfl⟩, ?_, rfl⟩, rfl, rfl⟩
    rw [chars, List.append_assoc]

/-! ## Reading and writing keys -/

/-- **Keys are read as the pattern tells.** -/
theorem parse_eq_match (s : String) :
    (∀ m, pattern.find? s = some m → ∃ k, ofGroups? m.groups = some k ∧ parse s = .ok k) ∧
      (pattern.find? s = none → parse s = .error (.malformedKey s)) := by
  rw [Pattern.find?, pattern, Pattern.search_start, ← pattern]
  constructor
  · intro m hm
    obtain ⟨k, hk, hs, rfl⟩ := mem_pattern.mp (List.mem_of_head? hm)
    exact ⟨k, ofGroups?_groups k, parse_eq_ok_iff.mpr ⟨hk, hs⟩⟩
  · intro hm
    have hnil := List.head?_eq_none_iff.mp hm
    cases hk : ofChars? s.toList with
    | none => rw [parse, hk]
    | some k =>
      obtain ⟨hwf, hs⟩ := ofChars?_eq_some.mp hk
      have := mem_pattern.mpr ⟨k, hwf, hs, rfl⟩
      rw [hnil] at this
      cases this

/-- **Keys and their texts.** A text is read as a key if it spells the key, which is then the only
one that it spells. Otherwise the lookup fails. What is read is written back as the same text, and
every well-formed key that is written is read back as the same key. -/
theorem grammar (s : String) :
    ((∀ m, pattern.find? s = some m → ∃ k, ofGroups? m.groups = some k ∧ parse s = .ok k) ∧
      (pattern.find? s = none → parse s = .error (.malformedKey s))) ∧
    (∀ k, parse s = .ok k ↔ k.Spells s) ∧
    (∀ k k' : Key, k.Spells s → k'.Spells s → k = k') ∧
    (∀ c, parse s = .error c → c.kind = .lookup) ∧
    (∀ k, parse s = .ok k → k.render = s) ∧
    ∀ k : Key, k.WellFormed → parse k.render = .ok k := by
  refine ⟨parse_eq_match s, fun k => parse_eq_ok_iff_spells, fun k k' h h' => ?_, fun c h => ?_,
    fun k h => ?_, fun k h => parse_eq_ok_iff.mpr ⟨h, toList_render k⟩⟩
  · rw [← parse_eq_ok_iff_spells] at h h'
    exact Except.ok.inj (h.symm.trans h')
  · rw [parse] at h
    split at h
    · cases h
    · cases h
      rfl
  · rw [← String.toList_inj, toList_render, (parse_eq_ok_iff.mp h).2]

end Key

end X86
