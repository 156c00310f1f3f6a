/-
The key of a declared action and the digest of an archive's tree
(`declared_action_key`, `tree_digest`): hashes of JSON in which inputs, outputs
and files stand sorted. An archive's manifest is checked against the latter.
-/
import Mathlib.Data.List.Lex
import Mathlib.Data.String.Basic
import Bellows.Core.ActionKey
import Bellows.Core.DeclaredManifest
import Bellows.Lib.KeyedSort

namespace Bellows.Core

open Checked Encoding KeyedSort

def Artifact.toJson (a : Artifact) : List UInt8 :=
  Json.object [jsonField "file_name" (jsonString a.fileName), jsonField "digest" (jsonString a.digest),
    jsonField "executable" (Json.bool a.executable)]

def PlatformIdentity.toJson (p : PlatformIdentity) : List UInt8 :=
  Json.object [jsonField "rustc" (jsonString p.rustc), jsonField "cargo" (jsonString p.cargo),
    jsonField "os" (jsonString p.os), jsonField "arch" (jsonString p.arch),
    jsonField "path_digest" (jsonString p.pathDigest),
    jsonField "rustup_home_digest" (jsonString p.rustupHomeDigest),
    jsonField "rustup_toolchain" (jsonOption p.rustupToolchain), jsonField "host_cc" (jsonOption p.hostCc),
    jsonField "host_ld" (jsonOption p.hostLd), jsonField "host_ar" (jsonOption p.hostAr)]

/-- The entries of a `BTreeMap`, in the order of their keys. -/
def jsonMap (entries : List (Text × Text)) : List UInt8 :=
  Json.object (entries.map fun entry => (utf8 entry.1, jsonString entry.2))

def jsonNumber (n : Nat) : List UInt8 := utf8 (Nat.toDigits 10 n)

/-- `sort_by` the file name. -/
def sortedByName (files : List Artifact) : List Artifact := files.insertionSort fun a b => a.fileName ≤ b.fileName

def treeDigest (digest : List UInt8 → Text) (files : List Artifact) : Text :=
  digest (Json.array Artifact.toJson (sortedByName files))

/-- The tuple that is hashed. -/
def declaredActionBytes (name : Text) (platform : PlatformIdentity) (command : List Text)
    (environment : List (Text × Text)) (inputs : List Artifact) (outputs : List Text) : List UInt8 :=
  Json.array id [jsonNumber PROTOCOL_VERSION, jsonString name, platform.toJson, Json.array jsonString command,
    jsonMap environment, Json.array Artifact.toJson (sortedByName inputs),
    Json.array jsonString (outputs.insertionSort (· ≤ ·))]

/-- `declared_action_key`. -/
def declaredActionKey (digest : List UInt8 → Text) : DeclaredActionKey :=
  fun name platform command environment inputs outputs =>
    digest (declaredActionBytes name platform command environment inputs outputs)

/-! ## Archives -/

/-- `validate_archive_name` -/
def validArchiveName (name : Text) : Bool :=
  decide (0 < name.length) && decide (name.length ≤ 128) &&
    name.all fun c => c.isAlphanum || c == '-' || c == '_' || c == '.'

/-- `validate_archive_manifest` -/
def validateArchiveManifest (digest : List UInt8 → Text) (m : ArchiveManifest) : Except String Unit := do
  refuseIf (m.protocol ≠ PROTOCOL_VERSION) ("unsupported archive protocol " ++ toString m.protocol)
  refuseIf (validArchiveName m.name = false) "invalid archive name"
  validateContentKey m.treeDigest
  m.producerAction.forM validateContentKey
  refuseIf (MAX_RECORD_ARTIFACTS < m.files.length) "archive has an invalid file count"
  validateArtifacts m.files "archive file"
  refuseIf (treeDigest digest m.files ≠ m.treeDigest) "archive tree digest mismatch"

/-! ## Records told by their JSON -/

theorem delimited_bool : Delimited Json.bool := by
  apply Delimited.of_prefix_free
  decide +kernel

theorem Artifact.delimited_toJson : Delimited Artifact.toJson := by
  have hexecutable := Json.delimited_next (utf8 "executable".toList) delimited_bool delimited_end
  have hdigest := Json.delimited_next (utf8 "digest".toList) delimited_jsonString hexecutable
  have hfields := Json.delimited_next (utf8 "file_name".toList) delimited_jsonString hdigest
  intro ⟨fileName, digest, executable⟩ ⟨fileName', digest', executable'⟩ r s h
  have hparts := hfields (fileName, digest, executable, ()) (fileName', digest', executable', ()) r s
  simp only [Artifact.toJson, jsonField, Json.object_cons, Json.objectRest, List.cons_append, List.cons.injEq,
    true_and] at h hparts
  simpa using hparts h

theorem PlatformIdentity.delimited_toJson : Delimited PlatformIdentity.toJson := by
  have hhostAr := Json.delimited_next (utf8 "host_ar".toList) delimited_jsonOption delimited_end
  have hhostLd := Json.delimited_next (utf8 "host_ld".toList) delimited_jsonOption hhostAr
  have hhostCc := Json.delimited_next (utf8 "host_cc".toList) delimited_jsonOption hhostLd
  have htoolchain := Json.delimited_next (utf8 "rustup_toolchain".toList) delimited_jsonOption hhostCc
  have hhome := Json.delimited_next (utf8 "rustup_home_digest".toList) delimited_jsonString htoolchain
  have hpath := Json.delimited_next (utf8 "path_digest".toList) delimited_jsonString hhome
  have harch := Json.delimited_next (utf8 "arch".toList) delimited_jsonString hpath
  have hos := Json.delimited_next (utf8 "os".toList) delimited_jsonString harch
  have hcargo := Json.delimited_next (utf8 "cargo".toList) delimited_jsonString hos
  have hfields := Json.delimited_next (utf8 "rustc".toList) delimited_jsonString hcargo
  intro p q r s h
  have hparts := hfields
    (p.rustc, p.cargo, p.os, p.arch, p.pathDigest, p.rustupHomeDigest, p.rustupToolchain, p.hostCc, p.hostLd, p.hostAr, ())
    (q.rustc, q.cargo, q.os, q.arch, q.pathDigest, q.rustupHomeDigest, q.rustupToolchain, q.hostCc, q.hostLd, q.hostAr, ())
    r s
  simp only [PlatformIdentity.toJson, jsonField, Json.object_cons, Json.objectRest, List.cons_append, List.cons.injEq,
    true_and] at h hparts
  obtain ⟨hall, hrest⟩ := hparts h
  simp only [Prod.mk.injEq, and_true] at hall
  cases p
  cases q
  simp only [PlatformIdentity.mk.injEq]
  exact ⟨hall, hrest⟩

theorem delimited_jsonMap : Delimited jsonMap := by
  have hentry : Delimited fun entry : Text × Text => Json.member (utf8 entry.1) (jsonString entry.2) := by
    have hname : Delimited fun name : Text => jsonString name ++ [58] := by
      simpa using delimited_jsonString.enclose [] [58]
    simpa [Json.member, jsonString] using hname.prod fun _ => delimited_jsonString
  have hentries := (hentry.sequence (by decide : (44 : UInt8) ≠ 125) fun entry => ⟨34, _, rfl, by decide⟩).enclose [123] []
  simp only [List.append_nil, List.singleton_append] at hentries
  intro entries entries' r s h
  simp only [jsonMap, Json.object, sequence_map] at h
  exact hentries entries entries' r s h

theorem Artifact.toJson_cons (a : Artifact) : ∃ c word, a.toJson = c :: word ∧ c ≠ 93 := ⟨123, _, rfl, by decide⟩

theorem delimited_artifacts : Delimited (Json.array Artifact.toJson) :=
  Json.delimited_array Artifact.delimited_toJson Artifact.toJson_cons

theorem delimited_strings : Delimited (Json.array jsonString) :=
  Json.delimited_array delimited_jsonString fun _ => ⟨34, _, rfl, by decide⟩

/-- The tuple tells its parts, inputs and outputs as they stand sorted. -/
theorem declaredActionBytes_inj {name name' : Text} {platform platform' : PlatformIdentity} {command command' : List Text}
    {environment environment' : List (Text × Text)} {inputs inputs' : List Artifact} {outputs outputs' : List Text}
    (h : declaredActionBytes name platform command environment inputs outputs =
      declaredActionBytes name' platform' command' environment' inputs' outputs') :
    name = name' ∧ platform = platform' ∧ command = command' ∧ environment = environment' ∧
      sortedByName inputs = sortedByName inputs' ∧ outputs.insertionSort (· ≤ ·) = outputs'.insertionSort (· ≤ ·) := by
  simp only [declaredActionBytes, Json.array, Encoding.sequence, id, List.cons.injEq, List.append_cancel_left_eq, true_and] at h
  obtain ⟨hname, h⟩ := delimited_jsonString name name' _ _ h
  obtain ⟨hplatform, h⟩ := PlatformIdentity.delimited_toJson platform platform' _ _ (List.cons.inj h).2
  obtain ⟨hcommand, h⟩ := delimited_strings command command' _ _ (List.cons.inj h).2
  obtain ⟨henvironment, h⟩ := delimited_jsonMap environment environment' _ _ (List.cons.inj h).2
  obtain ⟨hinputs, h⟩ := delimited_artifacts _ _ _ _ (List.cons.inj h).2
  obtain ⟨houtputs, -⟩ := delimited_strings _ _ _ _ (List.cons.inj h).2
  exact ⟨hname, hplatform, hcommand, henvironment, hinputs, houtputs⟩

/-! ## Order does not count -/

theorem sortedByName_eq_iff {files files' : List Artifact} (hn : (files.map (·.fileName)).Nodup) :
    sortedByName files = sortedByName files' ↔ files.Perm files' := insertionSort_eq_iff_perm Artifact.fileName hn

theorem sortedOutputs_eq_iff {outputs outputs' : List Text} (hn : outputs.Nodup) :
    outputs.insertionSort (· ≤ ·) = outputs'.insertionSort (· ≤ ·) ↔ outputs.Perm outputs' :=
  insertionSort_eq_iff_perm id (by simpa using hn)

/-- Keys of declared actions and digests of trees tell everything that goes in
but the order of inputs, outputs and files, if no two inputs have one digest. -/
theorem declaredActionKey_eq_iff {digest : List UInt8 → Text} (hdigest : Function.Injective digest)
    {name name' : Text} {platform platform' : PlatformIdentity} {command command' : List Text}
    {environment environment' : List (Text × Text)} {inputs inputs' : List Artifact} {outputs outputs' : List Text}
    (hinputs : (inputs.map (·.fileName)).Nodup) (hinputs' : (inputs'.map (·.fileName)).Nodup)
    (houtputs : outputs.Nodup) (houtputs' : outputs'.Nodup) {files files' : List Artifact}
    (hfiles : (files.map (·.fileName)).Nodup) :
    (declaredActionKey digest name platform command environment inputs outputs =
        declaredActionKey digest name' platform' command' environment' inputs' outputs' ↔
      name = name' ∧ platform = platform' ∧ command = command' ∧ environment = environment' ∧
        (∀ input, input ∈ inputs ↔ input ∈ inputs') ∧ ∀ output, output ∈ outputs ↔ output ∈ outputs') ∧
    (treeDigest digest files = treeDigest digest files' ↔ files.Perm files') := by
  have hinputSets : (∀ input, input ∈ inputs ↔ input ∈ inputs') ↔ inputs.Perm inputs' :=
    (List.perm_ext_iff_of_nodup hinputs.of_map hinputs'.of_map).symm
  have houtputSets : (∀ output, output ∈ outputs ↔ output ∈ outputs') ↔ outputs.Perm outputs' :=
    (List.perm_ext_iff_of_nodup houtputs houtputs').symm
  rw [hinputSets, houtputSets]
  constructor
  · constructor
    · intro h
      obtain ⟨hname, hplatform, hcommand, henvironment, hi, ho⟩ := declaredActionBytes_inj (hdigest h)
      exact ⟨hname, hplatform, hcommand, henvironment, (sortedByName_eq_iff hinputs).1 hi, (sortedOutputs_eq_iff houtputs).1 ho⟩
    · intro ⟨hname, hplatform, hcommand, henvironment, hi, ho⟩
      subst hname hplatform hcommand henvironment
      rw [declaredActionKey, declaredActionKey, declaredActionBytes, declaredActionBytes,
        (sortedByName_eq_iff hinputs).2 hi, (sortedOutputs_eq_iff houtputs).2 ho]
  · constructor
    · intro h
      exact (sortedByName_eq_iff hfiles).1 (delimited_artifacts.injective (hdigest h))
    · intro hperm
      rw [treeDigest, treeDigest, (sortedByName_eq_iff hfiles).2 hperm]

def examplePlatform : PlatformIdentity where
  rustc := "rustc test".toList
  cargo := "cargo test".toList
  os := "linux".toList
  arch := "x86_64".toList
  pathDigest := "0".toList
  rustupHomeDigest := "1".toList
  rustupToolchain := none
  hostCc := none
  hostLd := none
  hostAr := none

def exampleInputs : List Artifact := [⟨"a".toList, "0".toList, false⟩, ⟨"b".toList, "1".toList, true⟩]

def exampleOutputs : List Text := ["out/a".toList, "out/b".toList]

/-- Two inputs and two outputs in either order. -/
theorem declaredActionKey_reverse :
    declaredActionKey spelled "demo".toList examplePlatform [] [] exampleInputs exampleOutputs =
        declaredActionKey spelled "demo".toList examplePlatform [] [] exampleInputs.reverse exampleOutputs.reverse ∧
      treeDigest spelled exampleInputs = treeDigest spelled exampleInputs.reverse := by
  have hinputs : (exampleInputs.map (·.fileName)).Nodup := by decide
  have hinputs' : (exampleInputs.reverse.map (·.fileName)).Nodup := by decide
  have houtputs : exampleOutputs.Nodup := by decide
  have houtputs' : exampleOutputs.reverse.Nodup := by decide
  obtain ⟨hkey, htree⟩ := declaredActionKey_eq_iff spelled_injective hinputs hinputs' houtputs houtputs' hinputs
  refine ⟨hkey.2 ⟨rfl, rfl, rfl, rfl, fun input => ?_, fun output => ?_⟩, htree.2 (List.reverse_perm _).symm⟩
  · exact List.mem_reverse.symm
  · exact List.mem_reverse.symm

end Bellows.Core
