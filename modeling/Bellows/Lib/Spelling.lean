/-
Texts spelled with tokens: each word of a list replaced by its token, one word
after another, and each token by the word it stands for.

`decode_encode`: a text comes back if it contains no token, and each word
replaced in it is the one its token stands for and cannot touch a token.
`faithful_of_decode_encode`: where words and tokens cannot touch anyway, and
tokens stand for the longest of their words, it comes back only then.
-/
import Mathlib.Algebra.GroupWithZero.Nat
import Bellows.Lib.Marks

namespace Text

variable {α : Type} [DecidableEq α]

/-- Each word, from first to last, replaced by its token. -/
def encode (bases : List (List α × List α)) (text : List α) : List α :=
  bases.foldl (fun text base => replace base.2 base.1 text) text

/-- Each token, from first to last, replaced by its word. -/
def decode (entries : List (List α × List α)) (text : List α) : List α :=
  entries.foldl (fun text entry => replace entry.1 entry.2 text) text

/-- The words that are replaced in a text, with their tokens: those that occur
when it is their turn. -/
def replaced : List (List α × List α) → List α → List (List α × List α)
  | [], _ => []
  | base :: bases, text =>
    if base.2 <:+: text then base :: replaced bases (replace base.2 base.1 text) else replaced bases text

/-- The word that a token stands for. -/
def locate (entries : List (List α × List α)) (token : List α) : List α :=
  ((entries.find? (·.1 = token)).map (·.2)).getD token

/-- Tokens that are told apart wherever they occur. -/
structure Codes (tokens : List (List α)) : Prop where
  ne_nil : ∀ t ∈ tokens, t ≠ []
  border : ∀ t ∈ tokens, ∀ s : List α, s ≠ [] → s ≠ t → s <:+ t → ¬ s <+: t
  apart : ∀ t ∈ tokens, ∀ t' ∈ tokens, t = t' ∨ Apart t t'

omit [DecidableEq α] in
theorem Codes.of_subset {tokens tokens' : List (List α)} (h : Codes tokens') (hsub : ∀ t ∈ tokens, t ∈ tokens') :
    Codes tokens where
  ne_nil := fun t ht => h.ne_nil t (hsub t ht)
  border := fun t ht => h.border t (hsub t ht)
  apart := fun t ht t' ht' => h.apart t (hsub t ht) t' (hsub t' ht')

instance (tokens : List (List α)) : Decidable (Codes tokens) :=
  decidable_of_iff ((∀ t ∈ tokens, t ≠ []) ∧ (∀ t ∈ tokens, ∀ s ∈ t.tails, s ≠ [] → s ≠ t → ¬ s <+: t) ∧
      ∀ t ∈ tokens, ∀ t' ∈ tokens, t = t' ∨ Apart t t')
    ⟨fun h => ⟨h.1, fun t ht s hne hnet hs => h.2.1 t ht s ((List.mem_tails s t).2 hs) hne hnet, h.2.2⟩,
      fun h => ⟨h.ne_nil, fun t ht s hs hne hnet => h.border t ht s hne hnet ((List.mem_tails s t).1 hs), h.apart⟩⟩

/-- Nothing that is replaced in the text can be taken for something else. -/
structure Faithful (bases entries : List (List α × List α)) (text : List α) : Prop where
  clear : ∀ entry ∈ entries, ¬ entry.1 <:+: text
  own : ∀ base ∈ replaced bases text, base ∈ entries
  apart : ∀ base ∈ replaced bases text, ∀ entry ∈ entries, Apart entry.1 base.2

instance (bases entries : List (List α × List α)) (text : List α) : Decidable (Faithful bases entries text) :=
  decidable_of_iff ((∀ entry ∈ entries, ¬ entry.1 <:+: text) ∧ (∀ base ∈ replaced bases text, base ∈ entries) ∧
      ∀ base ∈ replaced bases text, ∀ entry ∈ entries, Apart entry.1 base.2)
    ⟨fun h => ⟨h.1, h.2.1, h.2.2⟩, fun h => ⟨h.clear, h.own, h.apart⟩⟩

/-! ## Words as marks -/

/-- The text with a mark in place of each word. -/
def marked (bases : List (List α × List α)) (z : List (α ⊕ (List α × List α))) : List (α ⊕ (List α × List α)) :=
  bases.foldl (fun z base => mark base.2 base z) z

variable {bases entries : List (List α × List α)} {z : List (α ⊕ (List α × List α))}

/-- What the marks stand for is the text. -/
theorem render_marked_snd (hne : ∀ base ∈ bases, base.2 ≠ []) (z : List (α ⊕ (List α × List α))) :
    render Prod.snd (marked bases z) = render Prod.snd z := by
  induction bases generalizing z with
  | nil => rfl
  | cons base bases ih =>
    show render Prod.snd (marked bases (mark base.2 base z)) = _
    rw [ih (fun b hb => hne b (List.mem_cons_of_mem _ hb)), render_mark_self (hne base List.mem_cons_self) rfl]

/-- What the marks' tokens read is the encoded text, where no word replaced
can touch a token in it. -/
theorem render_marked_fst (hne : ∀ base ∈ bases, base.2 ≠ [])
    (h : ∀ b ∈ replaced bases (render Prod.fst z), ∀ b', .inr b' ∈ z ∨ b' ∈ replaced bases (render Prod.fst z) →
      Apart b.2 b'.1) :
    render Prod.fst (marked bases z) = encode bases (render Prod.fst z) ∧
      ∀ b, .inr b ∈ marked bases z ↔ .inr b ∈ z ∨ b ∈ replaced bases (render Prod.fst z) := by
  induction bases generalizing z with
  | nil => exact ⟨rfl, fun b => by simp [marked, replaced]⟩
  | cons base bases ih =>
    have hword := hne base List.mem_cons_self
    have hne := fun b hb => hne b (List.mem_cons_of_mem base hb)
    by_cases hoccurs : base.2 <:+: render Prod.fst z
    · have hreplaced : replaced (base :: bases) (render Prod.fst z) =
          base :: replaced bases (replace base.2 base.1 (render Prod.fst z)) := if_pos hoccurs
      rw [hreplaced] at h ⊢
      have hmarks : ∀ b', .inr b' ∈ z → Apart base.2 b'.1 := fun b' hb' => h base List.mem_cons_self b' (.inl hb')
      have hrender := render_mark (b := base) (f := Prod.fst) hword z hmarks
      obtain ⟨hencode, hmem⟩ := ih (z := mark base.2 base z) hne fun b hb b' hb' => by
        rw [hrender] at hb hb'
        refine h b (List.mem_cons_of_mem _ hb) b' ?_
        rcases hb' with hb' | hb'
        · refine (mem_of_mem_mark hword hb').imp_right fun he => ?_
          rw [he]
          exact List.mem_cons_self
        · exact .inr (List.mem_cons_of_mem _ hb')
      rw [hrender] at hencode hmem
      refine ⟨hencode, fun b => (hmem b).trans ?_⟩
      have hplain := plain_infix_of_render hword hmarks hoccurs
      constructor
      · intro hb
        rcases hb with hb | hb
        · refine (mem_of_mem_mark hword hb).imp_right fun he => ?_
          rw [he]
          exact List.mem_cons_self
        · exact .inr (List.mem_cons_of_mem _ hb)
      · intro hb
        rcases hb with hb | hb
        · exact .inl (mem_mark_of_mem hword hb)
        · rcases List.mem_cons.1 hb with rfl | hb
          · exact .inl (mem_mark_self hword hplain)
          · exact .inr hb
    · have hreplaced : replaced (base :: bases) (render Prod.fst z) = replaced bases (render Prod.fst z) :=
        if_neg hoccurs
      rw [hreplaced] at h ⊢
      have hmark : mark base.2 base z = z := mark_of_not_infix fun hp => hoccurs (infix_render hp)
      show render Prod.fst (marked bases (mark base.2 base z)) =
        encode bases (replace base.2 base.1 (render Prod.fst z)) ∧ ∀ b, .inr b ∈ marked bases (mark base.2 base z) ↔ _
      rw [hmark, replace_of_not_infix _ hoccurs]
      exact ih hne h

theorem plain_infix_of_marked {s : List α} (hs : s ≠ []) (hne : ∀ base ∈ bases, base.2 ≠ [])
    (h : plain s <:+: marked bases z) : plain s <:+: z := by
  induction bases generalizing z with
  | nil => exact h
  | cons base bases ih =>
    exact plain_infix_of_mark hs (hne base List.mem_cons_self)
      (ih (fun b hb => hne b (List.mem_cons_of_mem _ hb)) h)

/-! ## Tokens back to words -/

theorem locate_cons (entry : List α × List α) (entries : List (List α × List α)) (token : List α) :
    locate (entry :: entries) token = if entry.1 = token then entry.2 else locate entries token := by
  unfold locate
  rw [List.find?_cons]
  by_cases h : entry.1 = token <;> simp [h]

theorem locate_of_not_mem {token : List α} (h : ∀ entry ∈ entries, entry.1 ≠ token) : locate entries token = token := by
  rw [locate, List.find?_eq_none.2 (by simpa using h)]
  rfl

/-- An entry, the first of its token. -/
theorem locate_mem {token : List α} (h : ∃ entry ∈ entries, entry.1 = token) : (token, locate entries token) ∈ entries := by
  induction entries with
  | nil =>
    obtain ⟨entry, hmem, -⟩ := h
    cases hmem
  | cons first entries ih =>
    rw [locate_cons]
    split
    · next heq =>
      rw [← heq]
      exact List.mem_cons_self
    · next hne =>
      obtain ⟨entry, hmem, heq⟩ := h
      rcases List.mem_cons.1 hmem with rfl | hmem
      · exact absurd heq hne
      · exact List.mem_cons_of_mem _ (ih ⟨entry, hmem, heq⟩)

theorem locate_eq (hnodup : (entries.map (·.1)).Nodup) {entry : List α × List α} (h : entry ∈ entries) :
    locate entries entry.1 = entry.2 := by
  induction entries with
  | nil => cases h
  | cons first entries ih =>
    rw [List.map_cons, List.nodup_cons] at hnodup
    rw [locate_cons]
    rcases List.mem_cons.1 h with rfl | h
    · exact if_pos rfl
    · rw [if_neg, ih hnodup.2 h]
      intro heq
      exact hnodup.1 (heq ▸ List.mem_map_of_mem h)

/-- **Decoding re-renders the marks**, where the text holds no other token, and
what a token becomes touches none. -/
theorem decode_render {f : List α × List α → List α} (hcodes : Codes (entries.map (·.1)))
    (hplain : ∀ entry ∈ entries, ¬ plain entry.1 <:+: z)
    (hmarks : ∀ b, .inr b ∈ z → ∀ entry ∈ entries, f b = entry.1 ∨ Apart entry.1 (f b))
    (hwords : ∀ b, .inr b ∈ z → ∀ entry ∈ entries, f b = entry.1 → ∀ other ∈ entries, Apart other.1 entry.2) :
    decode entries (render f z) = render (fun b => locate entries (f b)) z := by
  induction entries generalizing f with
  | nil => exact render_congr fun b _ => (locate_of_not_mem fun _ h => by cases h).symm
  | cons entry entries ih =>
    have hmem : entry.1 ∈ (entry :: entries).map (·.1) := List.mem_map_of_mem List.mem_cons_self
    have hrest : ∀ t ∈ entries.map (·.1), t ∈ (entry :: entries).map (·.1) := fun t ht => List.mem_cons_of_mem _ ht
    show decode entries (replace entry.1 entry.2 (render f z)) = _
    rw [replace_render (hcodes.ne_nil _ hmem) (hcodes.border _ hmem) entry.2 z
      (fun b hb => hmarks b hb entry List.mem_cons_self) (hplain entry List.mem_cons_self),
      ih (hcodes.of_subset hrest) (fun e he => hplain e (List.mem_cons_of_mem _ he))]
    · refine render_congr fun b hb => ?_
      rw [locate_cons]
      by_cases heq : f b = entry.1
      · rw [if_pos heq, if_pos heq.symm, locate_of_not_mem]
        intro other hother hsame
        exact (hwords b hb entry List.mem_cons_self heq other (List.mem_cons_of_mem _ hother)).ne hsame
      · rw [if_neg heq, if_neg (Ne.symm heq)]
    · intro b hb e he
      by_cases heq : f b = entry.1
      · rw [if_pos heq]
        exact .inr (hwords b hb entry List.mem_cons_self heq e (List.mem_cons_of_mem _ he))
      · rw [if_neg heq]
        exact hmarks b hb e (List.mem_cons_of_mem _ he)
    · intro b hb e he heq other hother
      by_cases hf : f b = entry.1
      · rw [if_pos hf] at heq
        exact absurd heq.symm (hwords b hb entry List.mem_cons_self hf e (List.mem_cons_of_mem _ he)).ne
      · rw [if_neg hf] at heq
        exact hwords b hb e (List.mem_cons_of_mem _ he) heq other (List.mem_cons_of_mem _ hother)

/-- What an encoded text is decoded to: each mark as its token's word. -/
theorem decode_encode_eq {text : List α} (hne : ∀ base ∈ bases, base.2 ≠ []) (hcodes : Codes (entries.map (·.1)))
    (hclear : ∀ entry ∈ entries, ¬ entry.1 <:+: text)
    (htokens : ∀ base ∈ replaced bases text, ∃ entry ∈ entries, entry.1 = base.1)
    (hapart : ∀ base ∈ replaced bases text, ∀ entry ∈ entries, Apart entry.1 base.2)
    (hwords : ∀ base ∈ replaced bases text, ∀ entry ∈ entries, base.1 = entry.1 → ∀ other ∈ entries,
      Apart other.1 entry.2) :
    decode entries (encode bases text) = render (fun b => locate entries b.1) (marked bases (plain text)) ∧
      ∀ b, .inr b ∈ marked bases (plain text) ↔ b ∈ replaced bases text := by
  have hfst := render_marked_fst (z := plain text) hne fun b hb b' hb' => by
    rw [render_plain] at hb hb'
    rcases hb' with hb' | hb'
    · exact absurd hb' (inr_not_mem_plain b' text)
    · obtain ⟨entry, he, heq⟩ := htokens b' hb'
      rw [← heq]
      exact (hapart b hb entry he).symm
  rw [render_plain] at hfst
  obtain ⟨hencode, hmem⟩ := hfst
  have hmem : ∀ b, .inr b ∈ marked bases (plain text) ↔ b ∈ replaced bases text := fun b =>
    (hmem b).trans ⟨fun h => h.resolve_left (inr_not_mem_plain b text), .inr⟩
  refine ⟨?_, hmem⟩
  rw [← hencode]
  refine decode_render hcodes ?_ ?_ ?_
  · intro entry he hinfix
    have hnil := hcodes.ne_nil entry.1 (List.mem_map_of_mem he)
    have htext := infix_render (f := Prod.fst) (plain_infix_of_marked hnil hne hinfix)
    rw [render_plain] at htext
    exact hclear entry he htext
  · intro b hb entry he
    obtain ⟨own, ho, heq⟩ := htokens b ((hmem b).1 hb)
    rw [← heq]
    exact (hcodes.apart entry.1 (List.mem_map_of_mem he) own.1 (List.mem_map_of_mem ho)).imp Eq.symm id
  · intro b hb entry he heq other ho
    exact hwords b ((hmem b).1 hb) entry he heq other ho

/-- **A text comes back**, if nothing that is replaced in it can be taken for
something else. -/
theorem decode_encode {text : List α} (hne : ∀ base ∈ bases, base.2 ≠ []) (hcodes : Codes (entries.map (·.1)))
    (hnodup : (entries.map (·.1)).Nodup) (h : Faithful bases entries text) :
    decode entries (encode bases text) = text := by
  have hown : ∀ base ∈ replaced bases text, ∀ entry ∈ entries, base.1 = entry.1 → base.2 = entry.2 := by
    intro base hb entry he heq
    rw [← locate_eq hnodup (h.own base hb), ← locate_eq hnodup he, heq]
  obtain ⟨hdecode, hmem⟩ := decode_encode_eq hne hcodes h.clear (fun base hb => ⟨base, h.own base hb, rfl⟩) h.apart
    fun base hb entry he heq other ho => hown base hb entry he heq ▸ h.apart base hb other ho
  rw [hdecode, render_congr (g := Prod.snd) fun b hb => locate_eq hnodup (h.own b ((hmem b).1 hb)),
    render_marked_snd hne, render_plain]

/-! ## Texts that do not come back -/

/-- Replacing is marking, and then putting one text in for each mark. -/
theorem render_mark_plain {word : List α} (hword : word ≠ []) (into text : List α) :
    render (fun _ => into) (mark word () (plain text)) = replace word into text := by
  rw [render_mark hword (plain text) fun b hb => absurd hb (inr_not_mem_plain b text), render_plain]

/-- A word that cannot touch what is put in does not come to occur. -/
theorem not_infix_replace {s word into text : List α} (hs : s ≠ []) (hword : word ≠ []) (hapart : Apart s into)
    (h : ¬ s <:+: text) : ¬ s <:+: replace word into text := by
  intro hinfix
  rw [← render_mark_plain hword] at hinfix
  have hplain := plain_infix_of_mark hs hword (plain_infix_of_render hs (fun _ _ => hapart) hinfix)
  have htext := infix_render (f := fun _ : Unit => into) hplain
  rw [render_plain] at htext
  exact h htext

/-- A word replaced by one that it cannot touch is gone. -/
theorem not_infix_replace_self {word into : List α} (hword : word ≠ []) (hapart : Apart word into) (text : List α) :
    ¬ word <:+: replace word into text := by
  intro hinfix
  rw [← render_mark_plain hword] at hinfix
  exact not_plain_infix_mark hword _ (plain_infix_of_render hword (fun _ _ => hapart) hinfix)

theorem not_infix_decode {s text : List α} (hs : s ≠ []) (hne : ∀ entry ∈ entries, entry.1 ≠ [])
    (hapart : ∀ entry ∈ entries, Apart s entry.2) (h : ¬ s <:+: text) : ¬ s <:+: decode entries text := by
  induction entries generalizing text with
  | nil => exact h
  | cons entry entries ih =>
    exact ih (fun e he => hne e (List.mem_cons_of_mem _ he)) (fun e he => hapart e (List.mem_cons_of_mem _ he))
      (not_infix_replace hs (hne entry List.mem_cons_self) (hapart entry List.mem_cons_self) h)

/-- A decoded text contains no token. -/
theorem decode_clear (hne : ∀ entry ∈ entries, entry.1 ≠ [])
    (hapart : ∀ entry ∈ entries, ∀ other ∈ entries, Apart entry.1 other.2) (text : List α) :
    ∀ entry ∈ entries, ¬ entry.1 <:+: decode entries text := by
  induction entries generalizing text with
  | nil => exact fun entry he => absurd he List.not_mem_nil
  | cons first entries ih =>
    have hne' := fun e he => hne e (List.mem_cons_of_mem first he)
    intro entry he
    rcases List.mem_cons.1 he with rfl | he
    · show ¬ entry.1 <:+: decode entries (replace entry.1 entry.2 text)
      exact not_infix_decode (hne entry List.mem_cons_self) hne'
        (fun other ho => hapart entry List.mem_cons_self other (List.mem_cons_of_mem _ ho))
        (not_infix_replace_self (hne entry List.mem_cons_self) (hapart entry List.mem_cons_self entry List.mem_cons_self) _)
    · exact ih hne' (fun e he other ho => hapart e (List.mem_cons_of_mem _ he) other (List.mem_cons_of_mem _ ho)) _
        entry he

/-- The length of a text, each element with a weight of its own. -/
def weight (w : α → Nat) (text : List α) : Nat := (text.map w).sum

omit [DecidableEq α] in
theorem weight_append (w : α → Nat) (a b : List α) : weight w (a ++ b) = weight w a + weight w b := by
  simp [weight]

omit [DecidableEq α] in
/-- Prefixes of one text that are as long are the same. -/
theorem append_inj_of_weight {w : α → Nat} (hw : ∀ c, 0 < w c) {a b a' b' : List α} (h : a ++ a' = b ++ b')
    (hlen : weight w a = weight w b) : a = b ∧ a' = b' := by
  have hnil : ∀ c : List α, weight w c = 0 → c = [] := by
    intro c hc
    cases c with
    | nil => rfl
    | cons x c =>
      have := hw x
      simp only [weight, List.map_cons, List.sum_cons] at hc
      omega
  rcases List.append_eq_append_iff.1 h with ⟨c, hb, ha⟩ | ⟨c, ha, hb⟩
  · rw [hb, weight_append] at hlen
    obtain rfl := hnil c (by omega)
    exact ⟨by simpa using hb.symm, by simpa using ha⟩
  · rw [ha, weight_append] at hlen
    obtain rfl := hnil c (by omega)
    exact ⟨by simpa using ha, by simpa using hb.symm⟩

omit [DecidableEq α] in
theorem weight_render_le {w : α → Nat} {f g : List α × List α → List α}
    (h : ∀ b, .inr b ∈ z → weight w (f b) ≤ weight w (g b)) : weight w (render f z) ≤ weight w (render g z) := by
  induction z with
  | nil => exact le_rfl
  | cons x z ih =>
    have ih := ih fun b hb => h b (List.mem_cons_of_mem _ hb)
    cases x with
    | inl c =>
      simp only [render_inl, weight, List.map_cons, List.sum_cons] at ih ⊢
      omega
    | inr b =>
      have := h b List.mem_cons_self
      simp only [render_inr, weight_append]
      omega

omit [DecidableEq α] in
/-- Marks rendered no shorter, and the text the same: each is rendered the
same. -/
theorem eq_of_render_eq {w : α → Nat} (hw : ∀ c, 0 < w c) {f g : List α × List α → List α}
    (h : ∀ b, .inr b ∈ z → weight w (f b) ≤ weight w (g b)) (heq : render f z = render g z) :
    ∀ b, .inr b ∈ z → f b = g b := by
  induction z with
  | nil => exact fun b hb => absurd hb List.not_mem_nil
  | cons x z ih =>
    have ih := ih fun b hb => h b (List.mem_cons_of_mem _ hb)
    intro b hb
    cases x with
    | inl c =>
      rw [render_inl, render_inl, List.cons.injEq] at heq
      exact ih heq.2 b ((List.mem_cons.1 hb).resolve_left (by simp))
    | inr first =>
      rw [render_inr, render_inr] at heq
      have hfirst := h first List.mem_cons_self
      have hrest := weight_render_le (w := w) fun b hb => h b (List.mem_cons_of_mem _ hb)
      have htotal := congrArg (weight w) heq
      rw [weight_append, weight_append] at htotal
      obtain ⟨hword, htext⟩ := append_inj_of_weight hw heq (by omega)
      rcases List.mem_cons.1 hb with hb | hb
      · rw [Sum.inr.inj hb]
        exact hword
      · exact ih htext b hb

/-- Words and tokens of which neither can touch the other. -/
structure Rooted (root dollar : α) (bases : List (List α × List α)) : Prop where
  token_head : ∀ base ∈ bases, base.1.head? = some dollar
  token_rootless : ∀ base ∈ bases, root ∉ base.1
  word_head : ∀ base ∈ bases, base.2.head? = some root
  word_clear : ∀ base ∈ bases, dollar ∉ base.2

omit [DecidableEq α] in
theorem Rooted.apart {root dollar : α} (h : Rooted root dollar bases) {base other : List α × List α} (hb : base ∈ bases)
    (ho : other ∈ bases) : Apart base.1 other.2 :=
  .of_head (h.token_head base hb) (h.word_head other ho) (h.word_clear other ho) (h.token_rootless base hb)

theorem mem_of_mem_replaced {text : List α} {base : List α × List α} (h : base ∈ replaced bases text) :
    base ∈ bases := by
  induction bases generalizing text with
  | nil => cases h
  | cons first bases ih =>
    unfold replaced at h
    split at h
    · rcases List.mem_cons.1 h with rfl | h
      · exact List.mem_cons_self
      · exact List.mem_cons_of_mem _ (ih h)
    · exact List.mem_cons_of_mem _ (ih h)

/-- **Only then does a text come back**, where no word can touch a token and
each token stands for the longest of its words. -/
theorem faithful_of_decode_encode {root dollar : α} {w : α → Nat} (hw : ∀ c, 0 < w c) {text : List α}
    (hrooted : Rooted root dollar bases) (hcodes : Codes (entries.map (·.1)))
    (hentries : ∀ entry ∈ entries, entry ∈ bases) (htokens : ∀ base ∈ bases, ∃ entry ∈ entries, entry.1 = base.1)
    (hlongest : ∀ base ∈ bases, weight w base.2 ≤ weight w (locate entries base.1))
    (h : decode entries (encode bases text) = text) : Faithful bases entries text := by
  have hne : ∀ base ∈ bases, base.2 ≠ [] := by
    intro base hb hnil
    have := hrooted.word_head base hb
    rw [hnil] at this
    cases this
  have hclear : ∀ entry ∈ entries, ¬ entry.1 <:+: text := by
    rw [← h]
    exact decode_clear (fun entry he => hcodes.ne_nil entry.1 (List.mem_map_of_mem he))
      (fun entry he other ho => hrooted.apart (hentries entry he) (hentries other ho)) _
  have hapart : ∀ base ∈ replaced bases text, ∀ entry ∈ entries, Apart entry.1 base.2 := fun base hb entry he =>
    hrooted.apart (hentries entry he) (mem_of_mem_replaced hb)
  obtain ⟨hdecode, hmem⟩ := decode_encode_eq hne hcodes hclear (fun base hb => htokens base (mem_of_mem_replaced hb))
    hapart fun base _ entry he _ other ho => hrooted.apart (hentries other ho) (hentries entry he)
  have hsame : render Prod.snd (marked bases (plain text)) =
      render (fun b => locate entries b.1) (marked bases (plain text)) := by
    rw [render_marked_snd hne, render_plain, ← hdecode, h]
  refine ⟨hclear, fun base hb => ?_, hapart⟩
  have hword := eq_of_render_eq hw (fun b hb => hlongest b (mem_of_mem_replaced ((hmem b).1 hb))) hsame base
    ((hmem base).2 hb)
  have hlocate := locate_mem (htokens base (mem_of_mem_replaced hb))
  rw [← hword] at hlocate
  exact hlocate

end Text
