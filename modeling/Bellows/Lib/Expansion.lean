/-
Reading tokens back where each begins with an element that is nowhere else
(`Tokened`): the text is expanded token by token. And the segments of the
result: which of them are a given word can be told from the text.
-/
import Mathlib.Data.List.Nodup
import Bellows.Lib.Segments
import Bellows.Lib.Spelling

namespace Text

open Segments

variable {α : Type} {root dollar : α} {entries : List (List α × List α)}

/-- Tokens begin with `dollar` and stand for texts that begin with `root`; they
have neither elsewhere, and no token begins another. -/
structure Tokened (root dollar : α) (entries : List (List α × List α)) : Prop where
  nodup : (entries.map (·.1)).Nodup
  token : ∀ entry ∈ entries, ∃ rest, entry.1 = dollar :: rest ∧ dollar ∉ rest
  rootless : ∀ entry ∈ entries, root ∉ entry.1
  path : ∀ entry ∈ entries, entry.2.head? = some root ∧ dollar ∉ entry.2
  apart : ∀ entry ∈ entries, ∀ other ∈ entries, entry.1 <+: other.1 → entry.1 = other.1

theorem Tokened.tail {entry : List α × List α} (h : Tokened root dollar (entry :: entries)) :
    Tokened root dollar entries where
  nodup := (List.nodup_cons.1 h.nodup).2
  token := fun e he => h.token e (List.mem_cons_of_mem _ he)
  rootless := fun e he => h.rootless e (List.mem_cons_of_mem _ he)
  path := fun e he => h.path e (List.mem_cons_of_mem _ he)
  apart := fun e he o ho => h.apart e (List.mem_cons_of_mem _ he) o (List.mem_cons_of_mem _ ho)

/-- A token begins only where there is a `dollar`. -/
theorem Tokened.not_prefix (h : Tokened root dollar entries) {entry : List α × List α} (he : entry ∈ entries) {c : α}
    (hc : c ≠ dollar) (text : List α) : ¬ entry.1 <+: c :: text := by
  obtain ⟨rest, hrest, -⟩ := h.token entry he
  rw [hrest, List.cons_prefix_cons]
  exact fun hp => hc hp.1.symm

/-- Two tokens that begin a text are the same. -/
theorem Tokened.unique (h : Tokened root dollar entries) {entry other : List α × List α} (he : entry ∈ entries)
    (ho : other ∈ entries) {text : List α} (hp : entry.1 <+: text) (hp' : other.1 <+: text) : entry = other := by
  refine List.inj_on_of_nodup_map h.nodup he ho ?_
  obtain hpre | hpre := List.prefix_or_prefix_of_prefix hp hp'
  · exact h.apart entry he other ho hpre
  · exact (h.apart other ho entry he hpre).symm

/-! ## Expanding -/

variable [DecidableEq α]

theorem decode_nil : ∀ entries : List (List α × List α), decode entries [] = []
  | [] => rfl
  | _ :: entries => decode_nil entries

theorem decode_cons (h : Tokened root dollar entries) {c : α} {text : List α}
    (hno : ∀ entry ∈ entries, ¬ entry.1 <+: c :: text) : decode entries (c :: text) = c :: decode entries text := by
  induction entries generalizing text with
  | nil => rfl
  | cons entry entries ih =>
    have hrest : ∀ other ∈ entries, ¬ other.1 <+: c :: replace entry.1 entry.2 text := by
      intro other ho hp
      obtain ⟨rest, hother, -⟩ := h.token other (List.mem_cons_of_mem _ ho)
      have hroot := h.rootless other (List.mem_cons_of_mem _ ho)
      rw [hother] at hp hroot
      obtain ⟨hc, hp⟩ := List.cons_prefix_cons.1 hp
      have hpre := prefix_of_prefix_replace (h.path entry List.mem_cons_self).1 (fun hm => hroot (List.mem_cons_of_mem _ hm)) hp
      refine hno other (List.mem_cons_of_mem _ ho) ?_
      rw [hother]
      exact List.cons_prefix_cons.2 ⟨hc, hpre⟩
    have hcons := replace_cons_of_not entry.2 (hno entry List.mem_cons_self)
    show decode entries (replace entry.1 entry.2 (c :: text)) = c :: decode entries (replace entry.1 entry.2 text)
    rw [hcons, ih h.tail hrest]

theorem decode_append (h : Tokened root dollar entries) (text : List α) : ∀ {a : List α}, dollar ∉ a →
    decode entries (a ++ text) = a ++ decode entries text
  | [], _ => rfl
  | c :: a, ha => by
    have hc : c ≠ dollar := fun heq => ha (heq ▸ List.mem_cons_self)
    rw [List.cons_append, decode_cons h fun entry he => h.not_prefix he hc _,
      decode_append h text fun hm => ha (List.mem_cons_of_mem _ hm), List.cons_append]

theorem decode_token (h : Tokened root dollar entries) {entry : List α × List α} (he : entry ∈ entries) (text : List α) :
    decode entries (entry.1 ++ text) = entry.2 ++ decode entries text := by
  induction entries generalizing text with
  | nil => cases he
  | cons first entries ih =>
    obtain ⟨rest, hrest, hdollar⟩ := h.token entry he
    by_cases heq : entry = first
    · subst heq
      have hne : entry.1 ≠ [] := by rw [hrest]; exact List.cons_ne_nil _ _
      show decode entries (replace entry.1 entry.2 (entry.1 ++ text)) = entry.2 ++ decode entries (replace entry.1 entry.2 text)
      rw [replace_self_append _ _ hne, decode_append h.tail _ (h.path entry he).2]
    · have hmem : entry ∈ entries := (List.mem_cons.1 he).resolve_left heq
      have hclear : ∀ s, s <:+ entry.1 → s ≠ [] → ¬ first.1 <+: s ++ text := by
        intro s hs hne hp
        rw [hrest, List.suffix_cons_iff, ← hrest] at hs
        obtain rfl | hs := hs
        · exact heq (h.unique he List.mem_cons_self (List.prefix_append _ _) hp)
        · cases s with
          | nil => exact hne rfl
          | cons c s =>
            have hc : c ≠ dollar := fun hc => hdollar (hc ▸ hs.subset List.mem_cons_self)
            exact h.not_prefix List.mem_cons_self hc _ hp
      have hreplace : replace first.1 first.2 (entry.1 ++ text) = entry.1 ++ replace first.1 first.2 text :=
        replace_append_of_clear first.2 hclear
      show decode entries (replace first.1 first.2 (entry.1 ++ text)) = entry.2 ++ decode entries (replace first.1 first.2 text)
      rw [hreplace, ih h.tail hmem]

/-- A text is read from its front: a token, or an element that begins none. -/
theorem Tokened.induction (h : Tokened root dollar entries) {P : List α → Prop} (nil : P [])
    (token : ∀ entry ∈ entries, ∀ text, P text → P (entry.1 ++ text))
    (cons : ∀ c text, (∀ entry ∈ entries, ¬ entry.1 <+: c :: text) → P text → P (c :: text)) (text : List α) : P text := by
  induction hn : text.length using Nat.strong_induction_on generalizing text with
  | _ n ih =>
    cases text with
    | nil => exact nil
    | cons c text =>
      by_cases htoken : ∃ entry ∈ entries, entry.1 <+: c :: text
      · obtain ⟨entry, he, rest, hrest⟩ := htoken
        obtain ⟨tail, htail, -⟩ := h.token entry he
        have hlength := congrArg List.length hrest
        rw [List.length_append, hn, htail, List.length_cons] at hlength
        rw [← hrest]
        exact token entry he rest (ih rest.length (by omega) rest rfl)
      · rw [List.length_cons] at hn
        exact cons c text (fun entry he hp => htoken ⟨entry, he, hp⟩) (ih text.length (by omega) text rfl)

/-! ## The segments of the result -/

/-- A segment of the result ends here. -/
def Stops (root : α) (entries : List (List α × List α)) (text : List α) : Prop :=
  text = [] ∨ text.head? = some root ∨ ∃ entry ∈ entries, entry.1 <+: text

/-- After `part` the text completes a segment `word`. -/
def Completes (root : α) (entries : List (List α × List α)) (word part text : List α) : Prop :=
  ∃ run after, text = run ++ after ∧ part ++ run = word ∧ Stops root entries after

omit [DecidableEq α] in
theorem completes_of_stops {word part text : List α} (hword : root ∉ word ∧ dollar ∉ word) (h : Tokened root dollar entries)
    (hstops : Stops root entries text) : Completes root entries word part text ↔ part = word := by
  constructor
  · intro hc
    obtain ⟨run, after, rfl, rfl, -⟩ := hc
    cases run with
    | nil => exact (List.append_nil part).symm
    | cons c run =>
      obtain hnil | hhead | ⟨entry, he, hp⟩ := hstops
      · cases hnil
      · exact absurd (by simp [Option.some.inj hhead]) hword.1
      · refine absurd hp (h.not_prefix he (fun heq => hword.2 ?_) _)
        simp [heq]
  · rintro rfl
    exact ⟨[], text, rfl, List.append_nil _, hstops⟩

omit [DecidableEq α] in
theorem completes_cons {word part text : List α} {c : α} (hno : ¬ Stops root entries (c :: text)) :
    Completes root entries word part (c :: text) ↔ Completes root entries word (part ++ [c]) text := by
  constructor
  · intro hc
    obtain ⟨run, after, heq, hword, hstops⟩ := hc
    cases run with
    | nil => exact absurd (heq ▸ hstops) hno
    | cons d run =>
      obtain ⟨rfl, rfl⟩ := List.cons.inj heq
      exact ⟨run, after, rfl, by rw [← hword, List.append_assoc, List.singleton_append], hstops⟩
  · intro hc
    obtain ⟨run, after, rfl, hword, hstops⟩ := hc
    exact ⟨c :: run, after, rfl, by rw [← hword, List.append_assoc, List.singleton_append], hstops⟩

/-- The text has `pat` somewhere, and what follows it satisfies `Q`. -/
def Occurs (pat : List α) (Q : List α → Prop) (text : List α) : Prop :=
  ∃ before after, text = before ++ pat ++ after ∧ Q after

section Occurs

variable {pat : List α} {Q : List α → Prop}

omit [DecidableEq α]

theorem occurs_nil (hpat : pat ≠ []) : ¬ Occurs pat Q [] := by
  intro h
  obtain ⟨before, after, heq, -⟩ := h
  simp [hpat] at heq

theorem occurs_cons (c : α) (text : List α) :
    Occurs pat Q (c :: text) ↔ (∃ after, c :: text = pat ++ after ∧ Q after) ∨ Occurs pat Q text := by
  constructor
  · intro h
    obtain ⟨before, after, heq, hq⟩ := h
    cases before with
    | nil => exact .inl ⟨after, heq, hq⟩
    | cons d before => exact .inr ⟨before, after, (List.cons.inj heq).2, hq⟩
  · intro h
    obtain ⟨after, heq, hq⟩ | ⟨before, after, heq, hq⟩ := h
    · exact ⟨[], after, heq, hq⟩
    · exact ⟨c :: before, after, by rw [heq]; rfl, hq⟩

theorem occurs_cons_of_not {c : α} {text : List α} (h : ¬ pat <+: c :: text) :
    Occurs pat Q (c :: text) ↔ Occurs pat Q text := by
  rw [occurs_cons, or_iff_right]
  exact fun hq => h ⟨hq.choose, hq.choose_spec.1.symm⟩

theorem occurs_append_of_not {text : List α} : ∀ {a : List α}, (∀ s, s <:+ a → s ≠ [] → ¬ pat <+: s ++ text) →
    (Occurs pat Q (a ++ text) ↔ Occurs pat Q text)
  | [], _ => Iff.rfl
  | c :: a, h => by
    have hc : ¬ pat <+: c :: (a ++ text) := h (c :: a) (List.suffix_refl _) (List.cons_ne_nil _ _)
    rw [List.cons_append, occurs_cons_of_not hc]
    exact occurs_append_of_not fun s hs => h s (hs.trans (List.suffix_cons c a))

end Occurs

/-- The places where a segment of the result begins: after a separator of the
text, or with the last segment of what a token stands for. -/
def Begins (root : α) (entries : List (List α × List α)) (word text : List α) : Prop :=
  Occurs [root] (Completes root entries word []) text ∨
    ∃ entry ∈ entries, Occurs entry.1 (Completes root entries word (lastSegment (· == root) entry.2)) text

variable {word : List α}

omit [DecidableEq α] in
/-- No token begins inside another. -/
theorem Tokened.clear (h : Tokened root dollar entries) {entry other : List α × List α} (he : entry ∈ entries)
    (ho : other ∈ entries) (text : List α) {s : List α} (hs : s <:+ entry.1) (hne : s ≠ []) (hp : other.1 <+: s ++ text) :
    s = entry.1 ∧ other = entry := by
  obtain ⟨rest, hrest, hdollar⟩ := h.token entry he
  rw [hrest, List.suffix_cons_iff, ← hrest] at hs
  obtain rfl | hs := hs
  · exact ⟨rfl, h.unique ho he hp (List.prefix_append _ _)⟩
  · cases s with
    | nil => exact absurd rfl hne
    | cons c s =>
      have hc : c ≠ dollar := fun hc => hdollar (hc ▸ hs.subset List.mem_cons_self)
      exact absurd hp (h.not_prefix ho hc _)

theorem not_begins_nil (h : Tokened root dollar entries) : ¬ Begins root entries word [] := by
  intro hb
  obtain hroot | ⟨entry, he, htoken⟩ := hb
  · exact occurs_nil (List.cons_ne_nil _ _) hroot
  · obtain ⟨rest, hrest, -⟩ := h.token entry he
    exact occurs_nil (by rw [hrest]; exact List.cons_ne_nil _ _) htoken

theorem begins_root (h : Tokened root dollar entries) (text : List α) :
    Begins root entries word (root :: text) ↔ Completes root entries word [] text ∨ Begins root entries word text := by
  have htoken : ∀ entry ∈ entries, ¬ entry.1 <+: root :: text := by
    intro entry he hp
    obtain ⟨rest, hrest, -⟩ := h.token entry he
    have hroot := h.rootless entry he
    rw [hrest] at hp hroot
    exact hroot ((List.cons_prefix_cons.1 hp).1 ▸ List.mem_cons_self)
  unfold Begins
  rw [occurs_cons, or_assoc]
  refine or_congr ?_ (or_congr_right (exists_congr fun entry => and_congr_right fun he => occurs_cons_of_not (htoken entry he)))
  simp

theorem begins_cons {c : α} {text : List α} (hno : ¬ Stops root entries (c :: text)) :
    Begins root entries word (c :: text) ↔ Begins root entries word text := by
  unfold Begins
  have hroot : ¬ [root] <+: c :: text := by
    intro hp
    refine hno (.inr (.inl ?_))
    rw [(List.cons_prefix_cons.1 hp).1]
    rfl
  rw [occurs_cons_of_not hroot]
  exact or_congr_right (exists_congr fun entry => and_congr_right fun he =>
    occurs_cons_of_not fun hp => hno (.inr (.inr ⟨entry, he, hp⟩)))

omit [DecidableEq α] in
theorem occurs_token_self (h : Tokened root dollar entries) {entry : List α × List α} (he : entry ∈ entries)
    {Q : List α → Prop} (text : List α) : Occurs entry.1 Q (entry.1 ++ text) ↔ Q text ∨ Occurs entry.1 Q text := by
  obtain ⟨rest, hrest, -⟩ := h.token entry he
  have hclear : ∀ s, s <:+ rest → s ≠ [] → ¬ entry.1 <+: s ++ text := by
    intro s hs hne hp
    have hlength := hs.length_le
    obtain ⟨rfl, -⟩ := h.clear he he text (hs.trans (hrest ▸ List.suffix_cons _ _)) hne hp
    rw [hrest, List.length_cons] at hlength
    omega
  have hcons : entry.1 ++ text = dollar :: (rest ++ text) := by rw [hrest, List.cons_append]
  rw [hcons, occurs_cons, ← hcons, occurs_append_of_not hclear]
  simp

theorem begins_token (h : Tokened root dollar entries) {entry : List α × List α} (he : entry ∈ entries) (text : List α) :
    Begins root entries word (entry.1 ++ text) ↔
      Completes root entries word (lastSegment (· == root) entry.2) text ∨ Begins root entries word text := by
  have hroot : ∀ s, s <:+ entry.1 → s ≠ [] → ¬ [root] <+: s ++ text := by
    intro s hs hne hp
    cases s with
    | nil => exact hne rfl
    | cons c s =>
      obtain ⟨rfl, -⟩ := List.cons_prefix_cons.1 hp
      exact h.rootless entry he (hs.subset List.mem_cons_self)
  have hother : ∀ other ∈ entries, ∀ Q, Occurs other.1 Q (entry.1 ++ text) ↔ other = entry ∧ Q text ∨ Occurs other.1 Q text := by
    intro other ho Q
    by_cases heq : other = entry
    · subst heq
      rw [occurs_token_self h ho]
      simp
    · rw [occurs_append_of_not fun s hs hne hp => heq (h.clear he ho text hs hne hp).2]
      simp [heq]
  unfold Begins
  rw [occurs_append_of_not hroot, or_left_comm]
  refine or_congr_right ?_
  constructor
  · intro hb
    obtain ⟨other, ho, hb⟩ := hb
    obtain ⟨rfl, hq⟩ | hb := (hother other ho _).1 hb
    · exact .inl hq
    · exact .inr ⟨other, ho, hb⟩
  · intro hb
    obtain hq | ⟨other, ho, hb⟩ := hb
    · exact ⟨entry, he, (hother entry he _).2 (.inl ⟨rfl, hq⟩)⟩
    · exact ⟨other, ho, (hother other ho _).2 (.inr hb)⟩

theorem splitOnP_root {part : List α} (hpart : root ∉ part) (rest : List α) :
    (part ++ root :: rest).splitOnP (· == root) = part :: rest.splitOnP (· == root) := by
  have hclear : ∀ c ∈ part, (c == root) = false := fun c hc => beq_eq_false_iff_ne.2 fun heq => hpart (heq ▸ hc)
  exact List.splitOnP_append_cons_of_forall_mem (p := (· == root)) hclear root (beq_self_eq_true root) rest

/-- What goes before the last segment does not matter, if it has no `word`. -/
theorem mem_splitOnP_append {a : List α} (ha : word ∉ a.splitOnP (· == root)) (b : List α) :
    word ∈ (a ++ b).splitOnP (· == root) ↔ word ∈ (lastSegment (· == root) a ++ b).splitOnP (· == root) := by
  obtain ⟨first, after, hb⟩ := exists_first (· == root) b
  have hsplit := splitOnP_eq_concat (· == root) a
  have hlast : (lastSegment (· == root) a).splitOnP (· == root) = [] ++ [lastSegment (· == root) a] :=
    List.splitOnP_eq_singleton (clear_of_mem_splitOnP (lastSegment_mem _ a))
  rw [splitOnP_append hsplit hb, splitOnP_append hlast hb, List.nil_append, List.mem_append, or_iff_right]
  intro hword
  rw [hsplit] at ha
  exact ha (List.mem_append_left _ hword)

/-- **Where a segment of the expanded text is `word`.** -/
theorem mem_splitOnP_decode (h : Tokened root dollar entries) (hword : root ∉ word ∧ dollar ∉ word)
    (hpaths : ∀ entry ∈ entries, word ∉ entry.2.splitOnP (· == root)) (text : List α) : ∀ {part : List α}, root ∉ part →
    (word ∈ (part ++ decode entries text).splitOnP (· == root) ↔
      Completes root entries word part text ∨ Begins root entries word text) := by
  induction text using h.induction with
  | nil =>
    intro part hpart
    have hsplit : part.splitOnP (· == root) = [part] :=
      List.splitOnP_eq_singleton fun c hc => beq_eq_false_iff_ne.2 fun heq => hpart (heq ▸ hc)
    rw [decode_nil, List.append_nil, hsplit, List.mem_singleton, or_iff_left (not_begins_nil h),
      completes_of_stops hword h (.inl rfl)]
    exact eq_comm
  | token entry he text ih =>
    intro part hpart
    obtain ⟨path, hpath⟩ := List.head?_eq_some_iff.1 (h.path entry he).1
    have hstops : Stops root entries (entry.1 ++ text) := .inr (.inr ⟨entry, he, List.prefix_append _ _⟩)
    have hlast : root ∉ lastSegment (· == root) entry.2 := fun hm => by
      have hclear := clear_of_mem_splitOnP (lastSegment_mem (· == root) entry.2) root hm
      simp at hclear
    have hin : word ∉ path.splitOnP (· == root) := fun hm => by
      have hno := hpaths entry he
      rw [hpath, List.splitOnP_cons_eq_if_modifyHead, if_pos (by simp)] at hno
      exact hno (List.mem_cons_of_mem _ hm)
    rw [decode_token h he, hpath, List.cons_append, splitOnP_root hpart, List.mem_cons, mem_splitOnP_append hin,
      ← lastSegment_cons (c := root) (by simp) path, ← hpath, ih hlast, begins_token h he,
      completes_of_stops hword h hstops]
    exact or_congr_left eq_comm
  | cons c text hno ih =>
    intro part hpart
    rw [decode_cons h hno]
    by_cases hc : c = root
    · subst hc
      have hih := @ih [] List.not_mem_nil
      rw [List.nil_append] at hih
      rw [splitOnP_root hpart, List.mem_cons, begins_root h, completes_of_stops hword h (.inr (.inl rfl)), hih]
      exact or_congr_left eq_comm
    · have hstops : ¬ Stops root entries (c :: text) := by
        intro hs
        obtain hnil | hhead | ⟨entry, he, hp⟩ := hs
        · cases hnil
        · exact hc (Option.some.inj hhead)
        · exact hno entry he hp
      have hpart' : root ∉ part ++ [c] := by simp [hpart, Ne.symm hc]
      have hih := ih hpart'
      rw [List.append_assoc, List.singleton_append] at hih
      rw [hih, completes_cons hstops, begins_cons hstops]

end Text
