/-
The check of a declared action's command (`validate_declared_command`), and
the arguments for which it keeps every path inside the sandbox. The check sees
what follows an argument's first `=` and nothing else of it.
-/
import Bellows.Core.CandidateManifest
import Bellows.Lib.Checked
import Bellows.Lib.Segments

namespace Bellows.Core

open Text Segments

/-! ## The check -/

/-- `as_bytes().get(1) == Some(&b':')` -/
def colonSecond : Text → Bool
  | c :: ':' :: _ => c.utf8Size == 1
  | _ => false

def windowsAbsolute (payload : Text) : Bool := colonSecond payload || "\\\\".toList.isPrefixOf payload

/-- What `validate_declared_command` forbids of an argument's payload. -/
def escapesSandbox (payload : Text) : Bool :=
  payload.head? == some '/' || payload.head?.any isSeparator || windowsAbsolute payload ||
    (payload.splitOnP isSeparator).any (· == ['.', '.'])

/-- What follows the first `=`, or the whole argument. -/
def payloadOf (argument : Text) : Text :=
  match splitOnce ['='] argument with
  | none => argument
  | some (_, value) => value

def checkArgument (argument : Text) : Except String Unit :=
  if escapesSandbox (payloadOf argument) then
    throw ("declared command argument escapes the sandbox: " ++ String.ofList argument)
  else return ()

def validateDeclaredCommand (command : List Text) : Except String Unit := do
  if 4096 < command.length ∨ command.any (64 * 1024 < utf8Len ·) then throw "declared command exceeds size limits"
  else match command with
    | [] => throw "declared command is empty"
    | program :: arguments =>
      if program ≠ "cargo".toList ∧ program ≠ "rustc".toList then
        throw "cacheable declared command must use bare cargo or rustc"
      else if program = "cargo".toList ∧ ("--locked".toList ∉ command ∨ "--offline".toList ∉ command) then
        throw "cacheable Cargo commands require --locked --offline"
      else arguments.forM checkArgument

/-! ## Paths inside the sandbox -/

/-- From the root, or from a drive's. -/
def startsAbsolute : Text → Bool
  | [] => false
  | c :: rest => isSeparator c || (c.isAlpha && rest.head? == some ':')

/-- No absolute path, and no `..` segment. -/
def Inside (part : Text) : Prop := startsAbsolute part = false ∧ ['.', '.'] ∉ part.splitOnP isSeparator

instance : DecidablePred Inside := fun _ => inferInstanceAs (Decidable (_ ∧ _))

/-- What follows each `=`. -/
def afterEquals : Text → List Text
  | [] => []
  | c :: rest => if c = '=' then rest :: afterEquals rest else afterEquals rest

/-- Every part that could be read as a path is inside. -/
def Confined (argument : Text) : Prop := ∀ part ∈ argument :: afterEquals argument, Inside part

instance : DecidablePred Confined := fun _ => inferInstanceAs (Decidable (∀ _ ∈ _, _))

/-- What the check leaves out is inside by itself: the text up to the first
`=`, and the beginning of what follows any other. -/
def Covered (argument : Text) : Prop :=
  match splitOnce ['='] argument with
  | none => True
  | some (name, value) => Inside (name ++ ['=']) ∧
    ∀ rest ∈ afterEquals value, startsAbsolute rest = false ∧ (rest.splitOnP isSeparator).head? ≠ some ['.', '.']

instance : DecidablePred Covered := fun argument => by
  unfold Covered
  split
  · exact .isTrue trivial
  · exact inferInstanceAs (Decidable (_ ∧ ∀ _ ∈ _, _ ∧ _))

/-! ## What the check leaves out -/

theorem mem_afterEquals {rest : Text} : ∀ {text : Text}, rest ∈ afterEquals text ↔ ∃ before, text = before ++ '=' :: rest
  | [] => by simp [afterEquals]
  | c :: text => by
    have ih : rest ∈ afterEquals text ↔ ∃ before, text = before ++ '=' :: rest := mem_afterEquals
    unfold afterEquals
    by_cases hc : c = '='
    · rw [if_pos hc, List.mem_cons, ih]
      constructor
      · rintro (rfl | ⟨before, rfl⟩)
        · exact ⟨[], by simp [hc]⟩
        · exact ⟨c :: before, rfl⟩
      · rintro ⟨before, h⟩
        cases before with
        | nil => simp_all
        | cons d before => exact .inr ⟨before, (List.cons.inj h).2⟩
    · rw [if_neg hc, ih]
      constructor
      · rintro ⟨before, rfl⟩
        exact ⟨c :: before, rfl⟩
      · rintro ⟨before, h⟩
        cases before with
        | nil => simp_all
        | cons d before => exact ⟨before, (List.cons.inj h).2⟩

theorem afterEquals_of_not_mem : ∀ {text : Text}, '=' ∉ text → afterEquals text = []
  | [], _ => rfl
  | c :: text, h => by
    rw [List.mem_cons, not_or] at h
    rw [afterEquals, if_neg (Ne.symm h.1), afterEquals_of_not_mem h.2]

theorem afterEquals_append : ∀ {name : Text} (value : Text), '=' ∉ name →
    afterEquals (name ++ '=' :: value) = value :: afterEquals value
  | [], _, _ => rfl
  | c :: name, value, h => by
    rw [List.mem_cons, not_or] at h
    rw [List.cons_append, afterEquals, if_neg (Ne.symm h.1), afterEquals_append value h.2]

/-- The first `=` cuts an argument in two. -/
theorem splitOnce_equals : ∀ {argument name value : Text}, splitOnce ['='] argument = some (name, value) →
    argument = name ++ '=' :: value ∧ '=' ∉ name
  | c :: argument, name, value, h => by
    unfold splitOnce at h
    split at h
    · next hp =>
      obtain ⟨rest, hrest⟩ := hp
      obtain ⟨rfl, rfl⟩ : [] = name ∧ argument = value := by simpa using h
      exact ⟨by rw [(List.cons.inj hrest).1]; rfl, List.not_mem_nil⟩
    · next hp =>
      have hc : c ≠ '=' := fun hc => hp ⟨argument, by simp [hc]⟩
      obtain ⟨⟨name', value'⟩, hs, heq⟩ := Option.map_eq_some_iff.1 h
      obtain ⟨rfl, rfl⟩ := Prod.mk.inj heq
      obtain ⟨rfl, hname⟩ := splitOnce_equals hs
      exact ⟨rfl, by simp [hname, Ne.symm hc]⟩

/-- How a text begins is not changed by what follows its `=`. -/
theorem startsAbsolute_append (name value : Text) :
    startsAbsolute (name ++ '=' :: value) = startsAbsolute (name ++ ['=']) := by
  match name with
  | [] => rfl
  | [c] => rfl
  | c :: d :: name => rfl

/-- A part that passes the check, and a `=` before it: only the part's
beginning is new. -/
theorem inside_append {name value : Text} (h : Inside value) : Inside (name ++ '=' :: value) ↔ Inside (name ++ ['=']) := by
  obtain ⟨before, last, hname⟩ := exists_last isSeparator name
  obtain ⟨first, after, hvalue⟩ := exists_first isSeparator value
  have hcons : ('=' :: value).splitOnP isSeparator = ('=' :: first) :: after := by
    rw [List.splitOnP_cons_eq_if_modifyHead, hvalue]
    rfl
  have hafter : ['.', '.'] ∉ after := fun hin => h.2 (hvalue ▸ List.mem_cons_of_mem _ hin)
  have hjoined : ∀ rest : Text, ['.', '.'] ≠ last ++ '=' :: rest := by
    intro rest heq
    have hmem : '=' ∈ ['.', '.'] := heq ▸ by simp
    simp at hmem
  have hsingle : ['='].splitOnP isSeparator = ['='] :: [] := rfl
  rw [Inside, Inside, startsAbsolute_append, splitOnP_append hname hcons, splitOnP_append hname hsingle]
  simp [hafter, hjoined]

/-- What follows a later `=` of a part that passes is new in how it begins. -/
theorem inside_after {value rest : Text} (h : Inside value) (hrest : rest ∈ afterEquals value) : Inside rest ↔
    startsAbsolute rest = false ∧ (rest.splitOnP isSeparator).head? ≠ some ['.', '.'] := by
  obtain ⟨before, rfl⟩ := mem_afterEquals.1 hrest
  obtain ⟨segments, last, hbefore⟩ := exists_last isSeparator (before ++ ['='])
  obtain ⟨first, after, hr⟩ := exists_first isSeparator rest
  have hvalue := splitOnP_append hbefore hr
  rw [List.append_assoc, List.singleton_append] at hvalue
  have hafter : ['.', '.'] ∉ after := fun hin => h.2 (by simp [hvalue, hin])
  rw [Inside, hr, List.head?_cons, List.mem_cons, not_or, and_iff_left hafter, Ne, Option.some.injEq]
  exact and_congr_right fun _ => not_congr eq_comm

theorem utf8Size_of_isAlpha {c : Char} (h : c.isAlpha = true) : c.utf8Size = 1 := by
  rw [Char.utf8Size_eq_one_iff]
  have hletter : (decide (c.val ≥ 65 ∧ c.val ≤ 90) || decide (c.val ≥ 97) && decide (c.val ≤ 122)) = true := h
  simp only [Bool.or_eq_true, Bool.and_eq_true, decide_eq_true_iff] at hletter
  obtain ⟨-, h⟩ | ⟨-, h⟩ := hletter
  · exact UInt32.le_trans h (by decide)
  · exact UInt32.le_trans h (by decide)

/-- A payload that passes the check is inside. -/
theorem inside_of_check {payload : Text} (h : escapesSandbox payload = false) : Inside payload := by
  simp only [escapesSandbox, windowsAbsolute, Bool.or_eq_false_iff] at h
  obtain ⟨⟨⟨-, hseparator⟩, hcolon, -⟩, hsegments⟩ := h
  refine ⟨?_, fun hin => ?_⟩
  · cases payload with
    | nil => rfl
    | cons c rest =>
      have hsep : isSeparator c = false := by simpa using hseparator
      cases rest with
      | nil => simp [startsAbsolute, hsep]
      | cons d rest =>
        simp only [startsAbsolute, hsep, List.head?_cons, Bool.false_or, Bool.and_eq_false_iff]
        by_cases hd : d = ':'
        · left
          subst hd
          have hsize : c.utf8Size ≠ 1 := by simpa [colonSecond] using hcolon
          rw [Bool.eq_false_iff]
          exact fun halpha => hsize (utf8Size_of_isAlpha halpha)
        · right
          simpa using hd
  · rw [List.any_eq_false] at hsegments
    simpa using hsegments _ hin

theorem confined_iff {argument : Text} (h : checkArgument argument = .ok ()) : Confined argument ↔ Covered argument := by
  have hcheck : escapesSandbox (payloadOf argument) = false := by
    unfold checkArgument at h
    split at h
    · cases h
    · next hc => simpa using hc
  have hinside := inside_of_check hcheck
  unfold Confined Covered
  cases hs : splitOnce ['='] argument with
  | none =>
    have hnot : '=' ∉ argument := fun hin =>
      (splitOnce_eq_none (by simp)).1 hs ((List.singleton_infix_iff _ _).2 hin)
    have hpayload : payloadOf argument = argument := by rw [payloadOf, hs]
    rw [hpayload] at hinside
    simp [afterEquals_of_not_mem hnot, hinside]
  | some split =>
    obtain ⟨name, value⟩ := split
    obtain ⟨rfl, hname⟩ := splitOnce_equals hs
    have hpayload : payloadOf (name ++ '=' :: value) = value := by rw [payloadOf, hs]
    rw [hpayload] at hinside
    rw [afterEquals_append value hname, List.forall_mem_cons, List.forall_mem_cons, inside_append hinside,
      and_iff_right hinside]
    refine and_congr_right fun _ => forall_congr' fun rest => forall_congr' fun hrest => ?_
    exact inside_after hinside hrest

/-- **An accepted command's arguments name nothing outside the sandbox just when
what the check leaves out does not**: the text up to an argument's first `=`,
and the beginning of what follows any other. -/
theorem validateDeclaredCommand_confines {command : List Text} (h : validateDeclaredCommand command = .ok ()) :
    (∀ argument ∈ command.tail, Confined argument) ↔ ∀ argument ∈ command.tail, Covered argument := by
  have hall : ∀ argument ∈ command.tail, checkArgument argument = .ok () := by
    unfold validateDeclaredCommand at h
    split at h
    · cases h
    split at h
    · cases h
    split at h
    · cases h
    split at h
    · cases h
    · exact Checked.forM_eq_ok.1 h
  exact forall_congr' fun argument => forall_congr' fun ha => confined_iff (hall argument ha)

def manifestCommand : List Text :=
  ["cargo".toList, "build".toList, "--locked".toList, "--offline".toList, "--manifest-path=fixture/Cargo.toml".toList]

theorem validateDeclaredCommand_confines_manifest : validateDeclaredCommand manifestCommand = .ok () ∧
    ∀ argument ∈ manifestCommand.tail, Confined argument :=
  have h : validateDeclaredCommand manifestCommand = .ok () := by decide +kernel
  ⟨h, (validateDeclaredCommand_confines h).2 (by decide +kernel)⟩

/-- `--extern=dep=/etc/x.rlib`: only `dep=/etc/x.rlib` is looked at. -/
theorem validateDeclaredCommand_escapes : ¬ ∀ command : List Text, validateDeclaredCommand command = .ok () →
    ∀ argument ∈ command.tail, Confined argument := by
  intro h
  have hargument := h ["rustc".toList, "--extern=dep=/etc/x.rlib".toList] (by decide +kernel)
    "--extern=dep=/etc/x.rlib".toList (by decide)
  revert hargument
  decide +kernel

end Bellows.Core
