/-
What a token at the start of a normalized path says of the path.

Roots overlap freely: one may lie in another, or begin another's name. Where
every root is an absolute path without a `$`, a path's normalized text begins
with a token only if the path's own text begins with that token's root.
-/
import Bellows.Core.PathNormalizer
import Bellows.Lib.Marks

namespace Bellows.Core

open Text

namespace PathNormalizer

/-- Every root has a known token, and is an absolute path without a `$`. -/
def Ordinary (n : PathNormalizer) : Prop :=
  ∀ base ∈ n.bases, base.1 ∈ roots ∧ base.2.head? = some '/' ∧ '$' ∉ base.2

instance (n : PathNormalizer) : Decidable n.Ordinary := inferInstanceAs (Decidable (∀ _ ∈ _, _))

theorem mem_spellings {n : PathNormalizer} {token root : Text} :
    root ∈ n.spellings token ↔ (token, root) ∈ n.bases := by
  simp only [spellings, List.mem_map, List.mem_filter, beq_iff_eq, Prod.exists, exists_eq_right]

end PathNormalizer

theorem token_head : ∀ token ∈ roots, token.head? = some '$' := by decide

theorem token_no_slash : ∀ token ∈ roots, '/' ∉ token := by decide

/-- No token begins another. -/
theorem token_eq : ∀ a ∈ roots, ∀ b ∈ roots, a <+: b → a = b := by decide

/-- Two tokens at the start of one text are the same. -/
theorem token_unique {a b text : Text} (ha : a ∈ roots) (hb : b ∈ roots) (hat : a <+: text) (hbt : b <+: text) :
    a = b := by
  rcases List.prefix_or_prefix_of_prefix hat hbt with h | h
  · exact token_eq a ha b hb h
  · exact (token_eq b hb a ha h).symm

/-- A root does not occur where a token stands. -/
theorem replace_token_append {root into token : Text} (hroot : root.head? = some '/') (ht : '/' ∉ token)
    (rest : Text) : replace root into (token ++ rest) = token ++ replace root into rest := by
  refine replace_append_of_clear _ fun s hs hne hp => ?_
  cases s with
  | nil => exact hne rfl
  | cons c s =>
    cases root with
    | nil => cases hroot
    | cons d root =>
      rw [List.cons_append, List.cons_prefix_cons] at hp
      obtain rfl : d = '/' := Option.some.inj hroot
      exact ht (hs.subset (hp.1 ▸ List.mem_cons_self))

/-- A token at the start stays there. -/
theorem token_prefix_foldl {token : Text} (ht : '/' ∉ token) : ∀ {bases : List (Text × Text)},
    (∀ base ∈ bases, base.2.head? = some '/') → ∀ rest : Text,
    token <+: bases.foldl (fun text base => replace base.2 base.1 text) (token ++ rest)
  | [], _, rest => List.prefix_append _ _
  | base :: bases, h, rest => by
    rw [List.foldl_cons, replace_token_append (h base List.mem_cons_self) ht]
    exact token_prefix_foldl ht (fun b hb => h b (List.mem_cons_of_mem _ hb)) _

namespace PathNormalizer

/-- The loop of `normalize` on a text whose start, up to the first `$`, is
still that of `path`. -/
theorem exists_root_of_foldl {token path : Text} (ht : token ∈ roots) : ∀ {bases : List (Text × Text)},
    Ordinary ⟨bases⟩ → ∀ {text : Text}, text.head? = some '/' → (∀ p, '$' ∉ p → p <+: text → p <+: path) →
    token <+: bases.foldl (fun text base => replace base.2 base.1 text) text →
    ∃ root, (token, root) ∈ bases ∧ root <+: path
  | [], _, text, hhead, _, hp => by
    obtain ⟨rest, rfl⟩ := hp
    have := token_head token ht
    cases token with
    | nil => cases this
    | cons c token => exact absurd (this.symm.trans hhead) (by decide)
  | (tok, root) :: bases, ho, text, hhead, hpath, hp => by
    obtain ⟨htok, hslash, hdollar⟩ := ho (tok, root) List.mem_cons_self
    have ho' : Ordinary ⟨bases⟩ := fun b hb => ho b (List.mem_cons_of_mem _ hb)
    rw [List.foldl_cons] at hp
    by_cases hr : root <+: text
    · obtain ⟨rest, rfl⟩ := hr
      have hne : root ≠ [] := by rintro rfl; cases hslash
      rw [replace_self_append _ _ hne] at hp
      have hfirst := token_prefix_foldl (token_no_slash tok htok) (fun b hb => (ho' b hb).2.1)
        (replace root tok rest)
      exact ⟨root, by rw [token_unique ht htok hp hfirst]; exact List.mem_cons_self,
        hpath root hdollar (List.prefix_append _ _)⟩
    · have hhead' : (replace root tok text).head? = some '/' := by
        cases text with
        | nil => cases hhead
        | cons c text => rw [replace, replaceFrom, if_neg hr]; exact hhead
      obtain ⟨r, hr, hpre⟩ := exists_root_of_foldl ht ho' hhead'
        (fun p hd hpr => hpath p hd (prefix_of_prefix_replace (token_head tok htok) hd hpr)) hp
      exact ⟨r, List.mem_cons_of_mem _ hr, hpre⟩

/-- **A token stands for its root.** -/
theorem exists_root_of_token_prefix {n : PathNormalizer} (ho : n.Ordinary) {token path : Text}
    (ht : token ∈ roots) (habs : path.head? = some '/') (h : token <+: n.normalize path) :
    ∃ root ∈ n.spellings token, root <+: path := by
  obtain ⟨root, hm, hp⟩ := exists_root_of_foldl ht ho habs (fun _ _ hp => hp) h
  exact ⟨root, mem_spellings.2 hm, hp⟩

end PathNormalizer

end Bellows.Core
