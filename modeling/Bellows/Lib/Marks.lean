/-
Replacing words of a text, seen as marking where they occur.

A marked text is a text with marks in it; a mark is rendered as some word. A
mark in place of each occurrence of a word (`mark`) keeps what the text stands
for, if the mark is rendered as that word (`render_mark_self`), and is the
replacement itself, if it is rendered as another (`render_mark`), as long as
no occurrence of the word can touch a mark that is there already (`Apart`).
-/
import Mathlib.Data.List.Infix
import Bellows.Lib.Text

namespace Text

variable {α β : Type} [DecidableEq α] [DecidableEq β]

/-! ## Words that cannot touch -/

omit [DecidableEq α] in
/-- A word's occurrence that starts in one text and goes on in the next. -/
theorem prefix_append_cases {s a b : List α} (h : s <+: a ++ b) : s <+: a ∨ a <+: s := by
  rcases List.prefix_or_prefix_of_prefix h (List.prefix_append a b) with h | h
  · exact .inl h
  · exact .inr h

/-- No occurrence of one word overlaps an occurrence of the other. -/
structure Apart (p b : List α) : Prop where
  not_infix : ¬ p <:+: b
  not_within : ¬ b <:+: p
  ends : ∀ s : List α, s ≠ [] → s <:+ p → ¬ s <+: b
  starts : ∀ s : List α, s ≠ [] → s <+: p → ¬ s <:+ b

instance (p b : List α) : Decidable (Apart p b) :=
  decidable_of_iff (¬ p <:+: b ∧ ¬ b <:+: p ∧ (∀ s ∈ p.tails, s ≠ [] → ¬ s <+: b) ∧
      ∀ s ∈ p.inits, s ≠ [] → ¬ s <:+ b)
    ⟨fun h => ⟨h.1, h.2.1, fun s hne hs => h.2.2.1 s ((List.mem_tails s p).2 hs) hne,
        fun s hne hs => h.2.2.2 s ((List.mem_inits s p).2 hs) hne⟩,
      fun h => ⟨h.not_infix, h.not_within, fun s hs hne => h.ends s hne ((List.mem_tails s p).1 hs),
        fun s hs hne => h.starts s hne ((List.mem_inits s p).1 hs)⟩⟩

omit [DecidableEq α] in
theorem Apart.symm {p b : List α} (h : Apart p b) : Apart b p :=
  ⟨h.not_within, h.not_infix, fun s hne hs hp => h.starts s hne hp hs, fun s hne hs hp => h.ends s hne hp hs⟩

omit [DecidableEq α] in
theorem Apart.ne {p b : List α} (h : Apart p b) : p ≠ b := by
  rintro rfl
  exact h.not_infix (List.infix_refl p)

omit [DecidableEq α] in
/-- Words are apart if one's first element, and all of another's, are not in
the other. -/
theorem Apart.of_head {p b : List α} {c d : α} (hp : p.head? = some c) (hb : b.head? = some d) (hc : c ∉ b)
    (hd : d ∉ p) : Apart p b := by
  obtain ⟨p', rfl⟩ := List.head?_eq_some_iff.1 hp
  obtain ⟨b', rfl⟩ := List.head?_eq_some_iff.1 hb
  refine ⟨fun h => hc (h.subset List.mem_cons_self), fun h => hd (h.subset List.mem_cons_self), ?_, ?_⟩
  · intro s hne hs hsb
    cases s with
    | nil => exact hne rfl
    | cons e s =>
      obtain ⟨rfl, -⟩ := List.cons_prefix_cons.1 hsb
      exact hd (hs.subset List.mem_cons_self)
  · intro s hne hs hsb
    cases s with
    | nil => exact hne rfl
    | cons e s =>
      obtain ⟨rfl, -⟩ := List.cons_prefix_cons.1 hs
      exact hc (hsb.subset List.mem_cons_self)

/-! ## Replacing -/

theorem replace_cons_of_not {pat : List α} (into : List α) {c : α} {rest : List α} (h : ¬ pat <+: c :: rest) :
    replace pat into (c :: rest) = c :: replace pat into rest := by
  simp only [replace, replaceFrom, if_neg h]

/-- Up to the first element of what is put in, nothing of the text changes. -/
theorem prefix_of_prefix_replace {pat into p : List α} {c : α} (hinto : into.head? = some c) (hc : c ∉ p) :
    ∀ {text : List α}, p <+: replace pat into text → p <+: text := by
  intro text
  induction text generalizing p with
  | nil => exact id
  | cons d rest ih =>
    cases p with
    | nil => exact fun _ => List.nil_prefix
    | cons e p =>
      intro h
      simp only [replace, replaceFrom] at h
      split at h
      · obtain ⟨into', rfl⟩ := List.head?_eq_some_iff.1 hinto
        rw [List.cons_append, List.cons_prefix_cons] at h
        exact absurd (h.1 ▸ List.mem_cons_self) hc
      · rw [List.cons_prefix_cons] at h ⊢
        exact ⟨h.1, ih (fun hm => hc (List.mem_cons_of_mem _ hm)) h.2⟩

/-- A text without the word is as it was. -/
theorem replace_of_not_infix {pat : List α} (into : List α) : ∀ {text : List α}, ¬ pat <:+: text →
    replace pat into text = text
  | [], _ => rfl
  | c :: rest, h => by
    rw [List.infix_cons_iff, not_or] at h
    rw [replace_cons_of_not into h.1, replace_of_not_infix into h.2]

/-- A replacement, an occurrence at a time. -/
theorem replace_induction {pat : List α} (into : List α) (hpat : pat ≠ []) {P : List α → List α → Prop}
    (nil : P [] []) (found : ∀ rest, P rest (replace pat into rest) → P (pat ++ rest) (into ++ replace pat into rest))
    (skip : ∀ c rest, ¬ pat <+: c :: rest → P rest (replace pat into rest) →
      P (c :: rest) (c :: replace pat into rest)) : ∀ text, P text (replace pat into text) := by
  intro text
  induction h : text.length using Nat.strong_induction_on generalizing text with
  | _ n ih =>
    cases text with
    | nil => exact nil
    | cons c rest =>
      by_cases hp : pat <+: c :: rest
      · obtain ⟨r, hr⟩ := hp
        rw [← hr, replace_self_append into r hpat]
        refine found r (ih r.length ?_ r rfl)
        have hlen := List.length_pos_of_ne_nil hpat
        rw [← h, ← hr, List.length_append]
        omega
      · rw [replace_cons_of_not into hp]
        exact skip c rest hp (ih rest.length (by rw [← h]; simp) rest rfl)

/-! ## Marked texts -/

/-- What a marked text reads, each mark rendered as a word. -/
def render (f : β → List α) (z : List (α ⊕ β)) : List α := z.flatMap (Sum.elim (fun c => [c]) f)

/-- The elements of a text, none of them a mark. -/
def plain (text : List α) : List (α ⊕ β) := text.map .inl

/-- A mark in place of each occurrence of the word. -/
def mark (word : List α) (b : β) (z : List (α ⊕ β)) : List (α ⊕ β) := replace (plain word) [.inr b] z

section

variable {f : β → List α} {z : List (α ⊕ β)}

omit [DecidableEq α] [DecidableEq β]

@[simp] theorem render_nil : render f ([] : List (α ⊕ β)) = [] := rfl

@[simp] theorem render_inl (c : α) : render f (.inl c :: z) = c :: render f z := rfl

@[simp] theorem render_inr (b : β) : render f (.inr b :: z) = f b ++ render f z := rfl

@[simp] theorem render_plain_append (text : List α) : render f (plain text ++ z) = text ++ render f z := by
  induction text with
  | nil => rfl
  | cons c text ih =>
    show c :: render f (plain text ++ z) = _
    rw [ih]
    rfl

@[simp] theorem render_plain (text : List α) : render f (plain text : List (α ⊕ β)) = text := by
  simpa using render_plain_append (f := f) (z := []) text

theorem inr_not_mem_plain (b : β) (text : List α) : Sum.inr b ∉ (plain text : List (α ⊕ β)) := by
  simp [plain]

theorem plain_ne_nil {text : List α} (h : text ≠ []) : (plain text : List (α ⊕ β)) ≠ [] := by
  simpa [plain] using h

theorem render_congr {g : β → List α} (h : ∀ b, .inr b ∈ z → f b = g b) : render f z = render g z := by
  induction z with
  | nil => rfl
  | cons x z ih =>
    have ih := ih fun b hb => h b (List.mem_cons_of_mem _ hb)
    cases x with
    | inl c => rw [render_inl, render_inl, ih]
    | inr b => rw [render_inr, render_inr, ih, h b List.mem_cons_self]

/-- A word that no mark touches is read where it stands in the text. -/
theorem plain_prefix_of_render {s : List α} (hz : ∀ b, .inr b ∈ z → ∀ s' : List α, s' ≠ [] → s' <:+ s →
    ¬ s' <+: f b ∧ ¬ f b <+: s') (h : s <+: render f z) : plain s <+: z := by
  induction z generalizing s with
  | nil =>
    rw [render_nil, List.prefix_nil] at h
    rw [h]
    exact List.nil_prefix
  | cons x z ih =>
    cases s with
    | nil => exact List.nil_prefix
    | cons d s =>
      cases x with
      | inl c =>
        obtain ⟨rfl, hs⟩ := List.cons_prefix_cons.1 h
        refine List.cons_prefix_cons.2 ⟨rfl, ih (fun b hb s' hne hs' => ?_) hs⟩
        exact hz b (List.mem_cons_of_mem _ hb) s' hne (hs'.trans (List.suffix_cons d s))
      | inr b =>
        obtain ⟨h1, h2⟩ := hz b List.mem_cons_self (d :: s) (by simp) (List.suffix_refl _)
        rcases prefix_append_cases h with h | h
        · exact absurd h h1
        · exact absurd h h2

theorem Apart.touches_nothing {p b : List α} (h : Apart p b) : ∀ s' : List α, s' ≠ [] → s' <:+ p →
    ¬ s' <+: b ∧ ¬ b <+: s' :=
  fun s' hne hs' => ⟨h.ends s' hne hs', fun hb => h.not_within (hb.isInfix.trans hs'.isInfix)⟩

/-- Where a word apart from what comes next is put, no occurrence begins. -/
theorem Apart.clear {p b : List α} (h : Apart p b) {s : List α} (hs : s <:+ b) (hne : s ≠ []) (w : List α) :
    ¬ p <+: s ++ w := by
  intro hp
  rcases prefix_append_cases hp with hp | hp
  · exact h.not_infix (hp.isInfix.trans hs.isInfix)
  · exact h.starts s hne hp hs

theorem infix_append_cases {s a w : List α} (h : s <:+: a ++ w) :
    s <:+: w ∨ ∃ r : List α, r ≠ [] ∧ r <:+ a ∧ s <+: r ++ w := by
  induction a with
  | nil => exact .inl h
  | cons c a ih =>
    rcases List.infix_cons_iff.1 h with h | h
    · exact .inr ⟨c :: a, by simp, List.suffix_refl _, h⟩
    · rcases ih h with h | ⟨r, hne, hr, h⟩
      · exact .inl h
      · exact .inr ⟨r, hne, hr.trans (List.suffix_cons c a), h⟩

theorem infix_render {s : List α} (h : plain s <:+: z) : s <:+: render f z := by
  obtain ⟨u, v, rfl⟩ := h
  refine ⟨render f u, render f v, ?_⟩
  simp [render, plain, List.flatMap_append, List.flatMap_map]

/-- A word that occurs where no mark touches it occurs in the text. -/
theorem plain_infix_of_render {s : List α} (hne : s ≠ []) (hz : ∀ b, .inr b ∈ z → Apart s (f b))
    (h : s <:+: render f z) : plain s <:+: z := by
  induction z with
  | nil => exact absurd (List.infix_nil.1 h) hne
  | cons x z ih =>
    have ih := ih fun b hb => hz b (List.mem_cons_of_mem _ hb)
    cases x with
    | inl c =>
      rcases List.infix_cons_iff.1 h with h | h
      · exact (plain_prefix_of_render (fun b hb => (hz b hb).touches_nothing) (z := .inl c :: z) h).isInfix
      · exact List.infix_cons (ih h)
    | inr b =>
      rcases infix_append_cases h with h | ⟨r, hr, hsuffix, h⟩
      · exact List.infix_cons (ih h)
      · exact absurd h ((hz b List.mem_cons_self).clear hsuffix hr _)

end

/-! ## Marking is replacing -/

variable {word : List α} {b : β} {f : β → List α}

/-- A mark that stands for its word changes nothing of what is read. -/
theorem render_mark_self (hword : word ≠ []) (hb : f b = word) (z : List (α ⊕ β)) :
    render f (mark word b z) = render f z := by
  refine replace_induction (P := fun z z' => render f z' = render f z) [.inr b] (plain_ne_nil hword) rfl ?_ ?_ z
  · intro rest ih
    show f b ++ render f (replace (plain word) [.inr b] rest) = _
    rw [ih, render_plain_append, hb]
  · intro x rest _ ih
    cases x with
    | inl c => rw [render_inl, render_inl, ih]
    | inr b' => rw [render_inr, render_inr, ih]

/-- **Marking a word replaces it**, where the marks that are there cannot
touch it. -/
theorem render_mark (hword : word ≠ []) (z : List (α ⊕ β)) (hz : ∀ b', .inr b' ∈ z → Apart word (f b')) :
    render f (mark word b z) = replace word (f b) (render f z) := by
  refine replace_induction (P := fun z z' => (∀ b', .inr b' ∈ z → Apart word (f b')) →
    render f z' = replace word (f b) (render f z)) [.inr b] (plain_ne_nil hword) (fun _ => rfl) ?_ ?_ z hz
  · intro rest ih hz
    rw [render_plain_append, replace_self_append _ _ hword, ← ih fun b' hb' => hz b' (List.mem_append_right _ hb')]
    rfl
  · intro x rest hnot ih hz
    have ih := ih fun b' hb' => hz b' (List.mem_cons_of_mem _ hb')
    cases x with
    | inl c =>
      have hnot : ¬ word <+: c :: render f rest := fun h =>
        hnot (plain_prefix_of_render (f := f) (fun b' hb' => (hz b' hb').touches_nothing) h)
      rw [render_inl, render_inl, ih, replace_cons_of_not _ hnot]
    | inr b' =>
      rw [render_inr, render_inr, ih,
        replace_append_of_clear _ fun s hs hne => (hz b' List.mem_cons_self).clear hs hne _]

omit [DecidableEq β] in
/-- **Replacing a word that marks stand for re-renders them**: those rendered
as the word, where no other mark touches it and it does not occur otherwise. -/
theorem replace_render (hword : word ≠ []) (hborder : ∀ s : List α, s ≠ [] → s ≠ word → s <:+ word → ¬ s <+: word)
    (into : List α) (z : List (α ⊕ β)) (hz : ∀ b', .inr b' ∈ z → f b' = word ∨ Apart word (f b'))
    (hplain : ¬ plain word <:+: z) :
    replace word into (render f z) = render (fun b' => if f b' = word then into else f b') z := by
  induction z with
  | nil => rfl
  | cons x z ih =>
    rw [List.infix_cons_iff, not_or] at hplain
    have ih := ih (fun b' hb' => hz b' (List.mem_cons_of_mem _ hb')) hplain.2
    cases x with
    | inl c =>
      have hnot : ¬ word <+: c :: render f z := by
        intro h
        cases word with
        | nil => exact hword rfl
        | cons d s =>
          obtain ⟨rfl, hs⟩ := List.cons_prefix_cons.1 h
          refine hplain.1 (List.cons_prefix_cons.2 ⟨rfl, plain_prefix_of_render (f := f) (fun b' hb' s' hne hs' => ?_) hs⟩)
          have hsuffix : s' <:+ d :: s := hs'.trans (List.suffix_cons d s)
          have hshort := hs'.length_le
          rcases hz b' (List.mem_cons_of_mem _ hb') with heq | hapart
          · -- the mark is the word itself, which has no border
            rw [heq]
            refine ⟨hborder s' hne ?_ hsuffix, fun hle => ?_⟩
            · intro he
              rw [he, List.length_cons] at hshort
              omega
            · have := hle.length_le
              rw [List.length_cons] at this
              omega
          · exact hapart.touches_nothing s' hne hsuffix
      rw [render_inl, render_inl, replace_cons_of_not _ hnot, ih]
    | inr b' =>
      rw [render_inr, render_inr]
      split
      · next heq => rw [heq, replace_self_append _ _ hword, ih]
      · next hne =>
        have hapart := (hz b' List.mem_cons_self).resolve_left hne
        rw [replace_append_of_clear _ fun s hs hne => hapart.clear hs hne _, ih]

/-! ## What is not marked -/

theorem plain_infix_of_mark {s : List α} {z : List (α ⊕ β)} (hne : s ≠ []) (hword : word ≠ [])
    (h : plain s <:+: mark word b z) : plain s <:+: z := by
  revert h
  refine replace_induction (P := fun z z' => plain s <:+: z' → plain s <:+: z) [.inr b] (plain_ne_nil hword) id ?_ ?_ z
  · intro rest ih h
    rcases List.infix_cons_iff.1 h with h | h
    · cases s with
      | nil => exact absurd rfl hne
      | cons c s => cases (List.cons_prefix_cons.1 h).1
    · exact (ih h).trans (List.suffix_append _ _).isInfix
  · intro x rest hnot ih h
    rcases List.infix_cons_iff.1 h with h | h
    · have hc : Sum.inr b ∉ (plain s : List (α ⊕ β)) := inr_not_mem_plain b s
      rw [← replace_cons_of_not _ hnot] at h
      exact (prefix_of_prefix_replace rfl hc h).isInfix
    · exact List.infix_cons (ih h)

/-- Once marked, the word occurs no more. -/
theorem not_plain_infix_mark (hword : word ≠ []) (z : List (α ⊕ β)) : ¬ plain word <:+: mark word b z := by
  refine replace_induction (P := fun _ z' => ¬ plain word <:+: z') [.inr b] (plain_ne_nil hword) ?_ ?_ ?_ z
  · rw [List.infix_nil]
    exact plain_ne_nil hword
  · intro rest ih h
    rcases List.infix_cons_iff.1 h with h | h
    · cases word with
      | nil => exact absurd rfl hword
      | cons c s => cases (List.cons_prefix_cons.1 h).1
    · exact ih h
  · intro x rest hnot ih h
    rcases List.infix_cons_iff.1 h with h | h
    · have hc : Sum.inr b ∉ (plain word : List (α ⊕ β)) := inr_not_mem_plain b word
      rw [← replace_cons_of_not _ hnot] at h
      exact hnot (prefix_of_prefix_replace rfl hc h)
    · exact ih h

/-- Without the word there is nothing to mark. -/
theorem mark_of_not_infix {z : List (α ⊕ β)} (h : ¬ plain word <:+: z) : mark word b z = z :=
  replace_of_not_infix _ h

theorem mem_of_mem_mark {b' : β} {z : List (α ⊕ β)} (hword : word ≠ []) (h : .inr b' ∈ mark word b z) :
    .inr b' ∈ z ∨ b' = b := by
  revert h
  refine replace_induction (P := fun z z' => Sum.inr b' ∈ z' → Sum.inr b' ∈ z ∨ b' = b) [.inr b]
    (plain_ne_nil hword) (fun h => .inl h) ?_ ?_ z
  · intro rest ih h
    rcases List.mem_cons.1 h with h | h
    · exact .inr (Sum.inr.inj h)
    · exact (ih h).imp_left (List.mem_append_right _)
  · intro x rest _ ih h
    rcases List.mem_cons.1 h with rfl | h
    · exact .inl List.mem_cons_self
    · exact (ih h).imp_left (List.mem_cons_of_mem _)

/-- No mark is dropped. -/
theorem mem_mark_of_mem {b' : β} {z : List (α ⊕ β)} (hword : word ≠ []) (h : .inr b' ∈ z) :
    .inr b' ∈ mark word b z := by
  revert h
  refine replace_induction (P := fun z z' => Sum.inr b' ∈ z → Sum.inr b' ∈ z') [.inr b] (plain_ne_nil hword) id ?_ ?_ z
  · intro rest ih h
    rcases List.mem_append.1 h with h | h
    · exact absurd h (inr_not_mem_plain b' word)
    · exact List.mem_cons_of_mem _ (ih h)
  · intro x rest _ ih h
    rcases List.mem_cons.1 h with rfl | h
    · exact List.mem_cons_self
    · exact List.mem_cons_of_mem _ (ih h)

/-- A word that occurs is marked. -/
theorem mem_mark_self {z : List (α ⊕ β)} (hword : word ≠ []) (h : plain word <:+: z) : .inr b ∈ mark word b z := by
  revert h
  refine replace_induction (P := fun z z' => plain word <:+: z → Sum.inr b ∈ z') [.inr b] (plain_ne_nil hword)
    (fun h => absurd (List.infix_nil.1 h) (plain_ne_nil hword)) ?_ ?_ z
  · intro rest _ _
    exact List.mem_cons_self
  · intro x rest hnot ih h
    rcases List.infix_cons_iff.1 h with h | h
    · exact absurd h hnot
    · exact List.mem_cons_of_mem _ (ih h)

end Text
