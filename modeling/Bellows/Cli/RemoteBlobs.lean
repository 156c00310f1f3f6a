/-
`Remote::blobs`: each distinct blob of a list is fetched once, in parallel, and
the copies are handed out in the list's order, the last by moving it.
-/
import Mathlib.Data.Finset.Insert
import Bellows.Cli.ParallelMap
import Bellows.Lib.Assoc
import Bellows.Lib.Checked
import Bellows.Lib.Text

namespace Bellows.Cli.Remote

open Transition ParallelMap Checked

abbrev Bytes := List UInt8

/-- `Remote::blob`, where the server answers with bytes or not. -/
def blob (digestBytes : Bytes → Text) (digest : Text) : Except String Bytes → Except String Bytes
  | .error e => .error e
  | .ok bytes =>
    if digestBytes bytes = digest then .ok bytes
    else .error ("remote blob " ++ String.ofList digest ++ " failed integrity verification (got " ++
      String.ofList (digestBytes bytes) ++ ")")

/-- The digests other than the one of the empty blob, at their first occurrence;
`seen` are those before. -/
def uniqueFrom (empty : Text) : Finset Text → List Text → List Text
  | _, [] => []
  | seen, digest :: digests =>
    if digest ≠ empty ∧ digest ∉ seen then digest :: uniqueFrom empty (insert digest seen) digests
    else uniqueFrom empty seen digests

def unique (empty : Text) (digests : List Text) : List Text := uniqueFrom empty ∅ digests

/-- The blobs fetched, up to the first failure. -/
def collect (fetched : List (Text × Except String Bytes)) : Except String (Assoc Text Bytes) :=
  fetched.foldlM (fun byDigest f => do return byDigest.insert f.1 (← f.2)) ∅

def counted (digests : List Text) : Assoc Text Nat :=
  digests.foldl (fun remaining digest => remaining.insert digest ((remaining.lookup digest).getD 0 + 1)) ∅

/-- What is left to be handed out. -/
structure Stock where
  remaining : Assoc Text Nat
  byDigest : Assoc Text Bytes

/-- The blob of one element; `none` where a count or a blob is missing, or a
count would go below zero. -/
def handOut (empty : Text) (s : Stock) (digest : Text) : Option (Bytes × Stock) :=
  if digest = empty then some ([], s)
  else do
    let count ← s.remaining.lookup digest
    if count = 0 then none
    else
      let left := count - 1
      let bytes ← s.byDigest.lookup digest
      some (bytes, ⟨s.remaining.insert digest left, if left = 0 then s.byDigest.erase digest else s.byDigest⟩)

def handOutAll (empty : Text) : Stock → List Text → Option (List Bytes)
  | _, [] => some []
  | s, digest :: digests => do
    let (bytes, s) ← handOut empty s digest
    return bytes :: (← handOutAll empty s digests)

/-- `blobs`, from what `parallel_map` returned on. -/
def deliver (empty : Text) (digests : List Text) (fetched : List (Except String Bytes)) :
    Option (Except String (List Bytes)) :=
  match collect ((unique empty digests).zip fetched) with
  | .error e => some (.error e)
  | .ok byDigest => (handOutAll empty ⟨counted digests, byDigest⟩ digests).map .ok

/-- What a call of `Remote::blobs` may do: the fetches that it makes and how it
ends; `none` is a panic. -/
def Blobs (digestBytes : Bytes → Text) (limit : Nat) (digests : List Text) (calls : List (Call Text (Except String Bytes)))
    (outcome : Option (Except String (List Bytes))) : Prop :=
  ∃ fetched, Maps (blob digestBytes) (unique (digestBytes []) digests) limit calls fetched ∧
    outcome = fetched.bind (deliver (digestBytes []) digests)

/-! ## The distinct digests -/

variable {empty : Text}

theorem mem_uniqueFrom {d : Text} : ∀ {seen : Finset Text} {digests : List Text},
    d ∈ uniqueFrom empty seen digests ↔ d ∈ digests ∧ d ≠ empty ∧ d ∉ seen
  | _, [] => by simp [uniqueFrom]
  | seen, digest :: digests => by
    rw [uniqueFrom]
    split
    · next h =>
      rw [List.mem_cons, mem_uniqueFrom, List.mem_cons, Finset.mem_insert]
      by_cases hd : d = digest
      · simp [hd, h]
      · simp [hd]
    · next h =>
      rw [mem_uniqueFrom, List.mem_cons]
      by_cases hd : d = digest
      · subst hd
        simp only [not_and, not_not] at h
        tauto
      · simp [hd]

theorem nodup_uniqueFrom : ∀ {seen : Finset Text} {digests : List Text}, (uniqueFrom empty seen digests).Nodup
  | _, [] => List.nodup_nil
  | seen, digest :: digests => by
    rw [uniqueFrom]
    split
    · refine List.nodup_cons.2 ⟨fun h => ?_, nodup_uniqueFrom⟩
      exact (mem_uniqueFrom.1 h).2.2 (Finset.mem_insert_self _ _)
    · exact nodup_uniqueFrom

theorem mem_unique {d : Text} {digests : List Text} : d ∈ unique empty digests ↔ d ∈ digests ∧ d ≠ empty := by
  simp [unique, mem_uniqueFrom]

/-! ## Failures -/

/-- Whether and how it fails. -/
def failure {α : Type} (x : Except String α) : Except String Unit := x.map fun _ => ()

variable {g : Text → Except String Bytes}

theorem failure_mapM_cons (digest : Text) (digests : List Text) :
    failure ((digest :: digests).mapM g) = g digest >>= fun _ => failure (digests.mapM g) := by
  rw [List.mapM_cons]
  cases g digest with
  | error e => rfl
  | ok bytes => cases digests.mapM g <;> rfl

/-- The first failure is the same with the repetitions left out. -/
theorem failure_uniqueFrom (hempty : ∃ bytes, g empty = .ok bytes) :
    ∀ {seen : Finset Text} {digests : List Text}, (∀ d ∈ seen, ∃ bytes, g d = .ok bytes) →
      failure ((uniqueFrom empty seen digests).mapM g) = failure (digests.mapM g)
  | _, [], _ => rfl
  | seen, digest :: digests, hseen => by
    rw [uniqueFrom, failure_mapM_cons]
    cases hdigest : g digest with
    | error e =>
      have hnew : digest ≠ empty ∧ digest ∉ seen := by
        constructor
        · intro heq
          obtain ⟨bytes, hbytes⟩ := hempty
          rw [← heq, hdigest] at hbytes
          cases hbytes
        · intro hmem
          obtain ⟨bytes, hbytes⟩ := hseen digest hmem
          rw [hdigest] at hbytes
          cases hbytes
      rw [if_pos hnew, failure_mapM_cons, hdigest]
      rfl
    | ok bytes =>
      split
      · rw [failure_mapM_cons, hdigest]
        exact failure_uniqueFrom hempty ((Finset.forall_mem_insert _ _ _).2 ⟨⟨bytes, hdigest⟩, hseen⟩)
      · exact failure_uniqueFrom hempty hseen

theorem failure_collect : ∀ {digests : List Text} {byDigest : Assoc Text Bytes},
    failure ((digests.zip (digests.map g)).foldlM (fun byDigest f => do return byDigest.insert f.1 (← f.2)) byDigest) =
      failure (digests.mapM g)
  | [], _ => rfl
  | digest :: digests, byDigest => by
    rw [failure_mapM_cons, List.map_cons, List.zip_cons_cons, List.foldlM_cons]
    cases hdigest : g digest with
    | error e => rfl
    | ok bytes => exact failure_collect

/-! ## Nothing fails when all is fetched -/

theorem lookup_collect {content : Text → Bytes} : ∀ {digests : List Text} (byDigest : Assoc Text Bytes),
    (∀ d ∈ digests, g d = .ok (content d)) → ∃ all,
      (digests.zip (digests.map g)).foldlM (fun byDigest f => do return byDigest.insert f.1 (← f.2)) byDigest = .ok all ∧
        ∀ d, all.lookup d = if d ∈ digests then some (content d) else byDigest.lookup d
  | [], byDigest, _ => ⟨byDigest, rfl, by simp⟩
  | digest :: digests, byDigest, h => by
    obtain ⟨hdigest, hrest⟩ := List.forall_mem_cons.1 h
    obtain ⟨all, hall, hlookup⟩ := lookup_collect (byDigest.insert digest (content digest)) hrest
    refine ⟨all, ?_, fun d => ?_⟩
    · rw [List.map_cons, List.zip_cons_cons, List.foldlM_cons, hdigest]
      exact hall
    · rw [hlookup, Assoc.lookup_insert_eq_ite]
      by_cases hd : d = digest
      · simp [hd]
      · simp [hd]

theorem lookup_counted (d : Text) : ∀ (digests : List Text) (remaining : Assoc Text Nat),
    ((digests.foldl (fun remaining digest => remaining.insert digest ((remaining.lookup digest).getD 0 + 1))
      remaining).lookup d).getD 0 = (remaining.lookup d).getD 0 + digests.count d
  | [], remaining => by simp
  | digest :: digests, remaining => by
    rw [List.foldl_cons, lookup_counted, Assoc.lookup_insert_eq_ite, List.count_cons]
    by_cases hd : d = digest
    · subst hd
      simp
      omega
    · simp [hd, Ne.symm hd]

/-- Every use that is left is counted, and every blob that is used is there. -/
def Stocked (empty : Text) (content : Text → Bytes) (s : Stock) (digests : List Text) : Prop :=
  ∀ d ∈ digests, d ≠ empty → s.remaining.lookup d = some (digests.count d) ∧ s.byDigest.lookup d = some (content d)

theorem Stocked.handOut {content : Text → Bytes} {s : Stock} {digest : Text} {digests : List Text}
    (h : Stocked empty content s (digest :: digests)) : ∃ t, Stocked empty content t digests ∧
      handOut empty s digest = some (if digest = empty then [] else content digest, t) := by
  unfold Remote.handOut
  by_cases hempty : digest = empty
  · refine ⟨s, fun d hd hne => ?_, by simp [hempty]⟩
    have hother : d ≠ digest := hempty ▸ hne
    have := h d (List.mem_cons_of_mem _ hd) hne
    rwa [List.count_cons_of_ne hother.symm] at this
  · obtain ⟨hcount, hbytes⟩ := h digest List.mem_cons_self hempty
    rw [List.count_cons_self] at hcount
    refine ⟨⟨s.remaining.insert digest (digests.count digest),
      if digests.count digest = 0 then s.byDigest.erase digest else s.byDigest⟩, fun d hd hne => ?_,
      by simp [hempty, hcount, hbytes]⟩
    obtain ⟨hcount', hbytes'⟩ := h d (List.mem_cons_of_mem _ hd) hne
    rw [Assoc.lookup_insert_eq_ite]
    by_cases hsame : d = digest
    · subst hsame
      have hleft : digests.count d ≠ 0 := (List.count_pos_iff.2 hd).ne'
      exact ⟨if_pos rfl, by rw [if_neg hleft]; exact hbytes'⟩
    · rw [List.count_cons_of_ne (Ne.symm hsame)] at hcount'
      refine ⟨by rw [if_neg hsame, hcount'], ?_⟩
      split
      · rw [Assoc.lookup_erase_eq_ite, if_neg hsame, hbytes']
      · exact hbytes'

theorem Stocked.handOutAll {content : Text → Bytes} : ∀ {digests : List Text} {s : Stock},
    Stocked empty content s digests →
      handOutAll empty s digests = some (digests.map fun d => if d = empty then [] else content d)
  | [], _, _ => rfl
  | digest :: digests, s, h => by
    obtain ⟨t, ht, hhand⟩ := h.handOut
    rw [Remote.handOutAll, hhand]
    simp only [Option.bind_eq_bind, Option.bind_some, ht.handOutAll, List.map_cons]
    rfl

/-! ## As if one by one -/

/-- What there is of a blob, if it was fetched. -/
def contentOf (g : Text → Except String Bytes) (digest : Text) : Bytes := (g digest).toOption.getD []

theorem mapM_eq_ok : ∀ {digests : List Text} {blobs : List Bytes}, digests.mapM g = .ok blobs →
    blobs = digests.map (contentOf g) ∧ ∀ d ∈ digests, g d = .ok (contentOf g d)
  | [], blobs, h => by
    obtain rfl := pure_eq_ok.1 h
    simp
  | digest :: digests, blobs, h => by
    rw [List.mapM_cons, bind_eq_ok] at h
    obtain ⟨bytes, hbytes, h⟩ := h
    obtain ⟨rest, hrest, h⟩ := bind_eq_ok.1 h
    obtain rfl := pure_eq_ok.1 h
    obtain ⟨hmap, hall⟩ := mapM_eq_ok hrest
    have hcontent : contentOf g digest = bytes := by rw [contentOf, hbytes]; rfl
    rw [List.map_cons, List.forall_mem_cons, hcontent, ← hmap]
    exact ⟨rfl, hbytes, hall⟩

theorem failure_eq_error {α : Type} {x : Except String α} {e : String} : failure x = .error e ↔ x = .error e := by
  cases x <;> simp [failure, Except.map]

theorem deliver_eq (hempty : g empty = .ok []) (digests : List Text) :
    deliver empty digests ((unique empty digests).map g) = some (digests.mapM g) := by
  have hfailure : failure (collect ((unique empty digests).zip ((unique empty digests).map g))) = failure (digests.mapM g) :=
    failure_collect.trans (failure_uniqueFrom ⟨[], hempty⟩ (by simp))
  cases hall : digests.mapM g with
  | error e =>
    rw [hall, failure_eq_error.2 rfl, failure_eq_error] at hfailure
    rw [deliver, hfailure]
  | ok blobs =>
    obtain ⟨hblobs, hok⟩ := mapM_eq_ok hall
    have hunique : ∀ d ∈ unique empty digests, g d = .ok (contentOf g d) := fun d hd => hok d (mem_unique.1 hd).1
    obtain ⟨byDigest, hcollect, hlookup⟩ := lookup_collect ∅ hunique
    have hstocked : Stocked empty (contentOf g) ⟨counted digests, byDigest⟩ digests := by
      intro d hd hne
      refine ⟨?_, by rw [hlookup, if_pos (mem_unique.2 ⟨hd, hne⟩)]⟩
      have hcount := lookup_counted d digests ∅
      rw [AList.lookup_empty, Option.getD_none, Nat.zero_add] at hcount
      have hpos := List.count_pos_iff.2 hd
      unfold counted
      cases hsome : (digests.foldl (fun remaining digest =>
          remaining.insert digest ((remaining.lookup digest).getD 0 + 1)) (∅ : Assoc Text Nat)).lookup d with
      | none => rw [hsome, Option.getD_none] at hcount; omega
      | some n => rw [hsome, Option.getD_some] at hcount; rw [hcount]
    have hcontent : contentOf g empty = [] := by rw [contentOf, hempty]; rfl
    rw [deliver, collect, hcollect]
    simp only [hstocked.handOutAll, Option.map_some, hblobs]
    congr 2
    refine List.map_congr_left fun d _ => ?_
    split
    · next heq => rw [heq, hcontent]
    · rfl

variable {digestBytes : Bytes → Text} {limit : Nat} {digests : List Text} {calls : List (Call Text (Except String Bytes))}
  {outcome : Option (Except String (List Bytes))}

theorem blob_empty (digestBytes : Bytes → Text) : blob digestBytes (digestBytes []) (.ok []) = .ok [] := if_pos rfl

/-- A blob is of its digest. -/
theorem digest_of_blob {digest : Text} {answer : Except String Bytes} {bytes : Bytes}
    (h : blob digestBytes digest answer = .ok bytes) : digestBytes bytes = digest := by
  cases answer with
  | error e => cases h
  | ok given =>
    by_cases heq : digestBytes given = digest
    · rw [blob, if_pos heq] at h
      exact Except.ok.inj h ▸ heq
    · rw [blob, if_neg heq] at h
      cases h

theorem Blobs.fetches (h : Blobs digestBytes limit digests calls outcome) :
    (calls.map (·.item)).Perm (unique (digestBytes []) digests) := by
  obtain ⟨fetched, hmaps, -⟩ := h
  obtain ⟨results, -, hmapped⟩ := hmaps.mapped
  exact hmapped.items_perm

/-- The answers of the server, to the fetches and to some that were not made. -/
theorem Blobs.outcome_eq (h : Blobs digestBytes limit digests calls outcome) {server : Text → Except String Bytes}
    (hserver : ∀ call ∈ calls, call.answer = server call.item) (hempty : server (digestBytes []) = .ok []) :
    outcome = some (digests.mapM fun d => blob digestBytes d (server d)) := by
  have hfetches := h.fetches
  obtain ⟨fetched, hmaps, rfl⟩ := h
  obtain ⟨results, rfl, hmapped⟩ := hmaps.mapped
  obtain ⟨answer, hanswer, -, rfl⟩ := hmapped.exists_answer nodup_uniqueFrom server
  have hsame : ∀ d ∈ unique (digestBytes []) digests, blob digestBytes d (answer d) = blob digestBytes d (server d) := by
    intro d hd
    obtain ⟨call, hcall, rfl⟩ := List.mem_map.1 (hfetches.mem_iff.2 hd)
    rw [← hanswer call hcall, ← hserver call hcall]
  rw [Option.bind_some, List.map_congr_left hsame]
  exact deliver_eq (by rw [hempty, blob_empty]) digests

/-- Some server gave these answers. -/
theorem Blobs.exists_server (h : Blobs digestBytes limit digests calls outcome) : ∃ server : Text → Except String Bytes,
    (∀ call ∈ calls, call.answer = server call.item) ∧ server (digestBytes []) = .ok [] := by
  obtain ⟨fetched, hmaps, rfl⟩ := h
  obtain ⟨results, rfl, hmapped⟩ := hmaps.mapped
  obtain ⟨answer, hanswer, hother, -⟩ := hmapped.exists_answer nodup_uniqueFrom fun _ => .ok []
  exact ⟨answer, hanswer, hother _ fun hmem => (mem_unique.1 hmem).2 rfl⟩

theorem map_digests {server : Text → Except String Bytes} : ∀ {digests : List Text} {blobs : List Bytes},
    (digests.mapM fun d => blob digestBytes d (server d)) = .ok blobs → blobs.map digestBytes = digests
  | digests, blobs, h => by
    obtain ⟨rfl, hall⟩ := mapM_eq_ok h
    rw [List.map_map]
    exact (List.map_congr_left fun d hd => digest_of_blob (hall d hd)).trans (List.map_id digests)

theorem exists_blobs {g : Text → Except String Bytes} : ∀ {digests : List Text},
    (∀ d ∈ digests, ∃ bytes, g d = .ok bytes) → ∃ blobs, digests.mapM g = .ok blobs
  | [], _ => ⟨[], rfl⟩
  | digest :: digests, h => by
    obtain ⟨⟨bytes, hbytes⟩, hrest⟩ := List.forall_mem_cons.1 h
    obtain ⟨blobs, hblobs⟩ := exists_blobs hrest
    refine ⟨bytes :: blobs, ?_⟩
    rw [List.mapM_cons, hbytes, hblobs]
    rfl

/-- However the workers' steps are ordered, they come to an end, each distinct
blob but the empty one is fetched once, and the outcome is what fetching one by
one gives: nothing panics, the blobs are those of the digests if every fetch
succeeds, and there is an error if one fails. -/
theorem blobs_eq (digestBytes : Bytes → Text) (limit : Nat) (digests : List Text) :
    (∀ ms s, Run (fun s a t => step (unique (digestBytes []) digests) (blob digestBytes) s a = some t)
        (start (unique (digestBytes []) digests) limit) ms s →
      ms.length ≤ min limit (unique (digestBytes []) digests).length + 3 * (unique (digestBytes []) digests).length ∧
        ((∃ worker ∈ s.workers, worker.ended = false) →
          ∃ a t, step (unique (digestBytes []) digests) (blob digestBytes) s a = some t)) ∧
    ∀ calls outcome, Blobs digestBytes limit digests calls outcome →
      (calls.map (·.item)).Nodup ∧ (∀ d, d ∈ calls.map (·.item) ↔ d ∈ digests ∧ d ≠ digestBytes []) ∧
      ((∀ call ∈ calls, ∃ bytes, blob digestBytes call.item call.answer = .ok bytes) →
        ∃ blobs, outcome = some (.ok blobs) ∧ blobs.map digestBytes = digests) ∧
      ((∃ call ∈ calls, ∃ e, blob digestBytes call.item call.answer = .error e) → ∃ e, outcome = some (.error e)) ∧
      ∀ server : Text → Except String Bytes, (∀ call ∈ calls, call.answer = server call.item) →
        server (digestBytes []) = .ok [] → outcome = some (digests.mapM fun d => blob digestBytes d (server d)) := by
  refine ⟨fun ms s hrun => ⟨?_, ?_⟩, fun calls outcome h => ?_⟩
  · obtain ⟨-, hlen⟩ := run_length hrun
    have := stepsLeft_nonneg (unique (digestBytes []) digests) s
    omega
  · intro hworker
    obtain ⟨worker, hworker, hrunning⟩ := hworker
    exact exists_step hworker hrunning
  have hfetches := h.fetches
  have hmem : ∀ d, d ∈ calls.map (·.item) ↔ d ∈ digests ∧ d ≠ digestBytes [] :=
    fun d => hfetches.mem_iff.trans mem_unique
  obtain ⟨server, hserver, hempty⟩ := h.exists_server
  have houtcome := h.outcome_eq hserver hempty
  refine ⟨hfetches.nodup_iff.2 nodup_uniqueFrom, hmem, fun hok => ?_, fun hbad => ?_, fun server => h.outcome_eq⟩
  · have hall : ∀ d ∈ digests, ∃ bytes, blob digestBytes d (server d) = .ok bytes := by
      intro d hd
      by_cases hd' : d = digestBytes []
      · exact ⟨[], by rw [hd', hempty, blob_empty]⟩
      · obtain ⟨call, hcall, rfl⟩ := List.mem_map.1 ((hmem d).2 ⟨hd, hd'⟩)
        rw [← hserver call hcall]
        exact hok call hcall
    obtain ⟨blobs, hblobs⟩ := exists_blobs hall
    exact ⟨blobs, by rw [houtcome, hblobs], map_digests hblobs⟩
  · obtain ⟨call, hcall, e, he⟩ := hbad
    cases hall : digests.mapM fun d => blob digestBytes d (server d) with
    | error e => exact ⟨e, by rw [houtcome, hall]⟩
    | ok blobs =>
      have hbytes := (mapM_eq_ok hall).2 call.item ((hmem _).1 (List.mem_map_of_mem hcall)).1
      rw [← hserver call hcall, he] at hbytes
      cases hbytes

/-- A digest of the bytes as characters, for the example. -/
def spell (bytes : Bytes) : Text := bytes.map fun b => Char.ofNat b.toNat

def unspell (digest : Text) : Bytes := digest.map fun c => UInt8.ofNat c.toNat

/-- The second worker is done before the first has an answer. -/
def overtaking : List (Action (Except String Bytes)) :=
  [.take 0, .take 1, .call 1 (.ok (unspell ['b'])), .store 1, .take 1, .call 0 (.ok (unspell ['a'])), .store 0, .take 0]

theorem blobs_overtaking : ∃ calls, Blobs spell 2 [['a'], [], ['b'], ['a']] calls (some (.ok [[97], [], [98], [97]])) := by
  obtain ⟨ms, hrun⟩ := Run.foldlM (step (unique (spell []) [['a'], [], ['b'], ['a']]) (blob spell))
    (start (unique (spell []) [['a'], [], ['b'], ['a']]) 2) overtaking
    (s := ⟨4, [some (.ok [97]), some (.ok [98])], [.finished, .finished],
      [⟨0, ['a'], .ok [97]⟩, ⟨1, ['b'], .ok [98]⟩]⟩) rfl
  have hmaps := Maps.threads ⟨by decide, by decide⟩ hrun (by simp [Worker.ended])
  have hblobs : Blobs spell 2 [['a'], [], ['b'], ['a']] _ _ := ⟨_, hmaps, rfl⟩
  have houtcome := ((blobs_eq spell 2 [['a'], [], ['b'], ['a']]).2 _ _ hblobs).2.2.2.2 (fun d => .ok (unspell d))
    (by simp [unspell]) rfl
  have hserved : ([['a'], [], ['b'], ['a']].mapM fun d => blob spell d (.ok (unspell d))) =
      .ok [[97], [], [98], [97]] := by decide +kernel
  rw [houtcome, hserved] at hblobs
  exact ⟨_, hblobs⟩

end Bellows.Cli.Remote
