/-
The key a compiler action's results are stored under (`compiler_action_key`):
one hash over four named fields, each with its length before it, the last three
holding JSON.
-/
import Bellows.Core.Localize
import Bellows.Core.Manifest
import Bellows.Lib.Json
import Bellows.Lib.Utf8

namespace Bellows.Core

open Encoding

/-- A string in memory, whose length in bytes is a `usize`. -/
structure Str where
  text : Text
  fits : (utf8 text).length < 2 ^ 64

/-- `to_le_bytes` of a `u64`. -/
def leU64 (n : Nat) : List UInt8 := leBytes 8 n

/-- What `hash_key_field` feeds the hasher. -/
def hashKeyField (name : Text) (bytes : List UInt8) : List UInt8 :=
  leU64 (utf8 name).length ++ utf8 name ++ leU64 bytes.length ++ bytes

def jsonString (text : Text) : List UInt8 := Json.string (utf8 text)

/-- A member of a record, under its field's name. -/
def jsonField (name : String) (value : List UInt8) : List UInt8 × List UInt8 := (utf8 name.toList, value)

def FileInput.toJson (f : FileInput) : List UInt8 :=
  Json.object [jsonField "path" (jsonString f.path), jsonField "digest" (jsonString f.digest)]

def jsonOption : Option Text → List UInt8
  | none => Json.null
  | some text => jsonString text

/-- `normalized` is written only where it is set. -/
def EnvInput.toJson (e : EnvInput) : List UInt8 :=
  Json.object
    ([jsonField "name" (jsonString e.name), jsonField "value_digest" (jsonOption e.valueDigest)] ++
      if e.normalized then [jsonField "normalized" (Json.bool true)] else [])

/-- The bytes hashed, one field after the other. -/
def actionKeyBytes (staticKey : Str) (files hostFiles : List FileInput) (environment : List EnvInput) :
    List UInt8 :=
  hashKeyField "static".toList (utf8 staticKey.text) ++
    hashKeyField "files".toList (Json.array FileInput.toJson files) ++
    hashKeyField "host-files".toList (Json.array FileInput.toJson hostFiles) ++
    hashKeyField "env".toList (Json.array EnvInput.toJson environment)

/-- `compiler_action_key`, for the digest in hexadecimal of the bytes hashed. -/
def compilerActionKey (digest : List UInt8 → Text) (staticKey : Str) (files hostFiles : List FileInput)
    (environment : List EnvInput) : Text :=
  digest (actionKeyBytes staticKey files hostFiles environment)

/-! ## Records told by their JSON -/

theorem utf8_injective : Function.Injective utf8 := Utf8.encode_injective

theorem delimited_jsonString : Delimited jsonString := Json.delimited_string.comp utf8_injective

theorem jsonString_cons (text : Text) : ∃ word, jsonString text = 34 :: word := ⟨_, rfl⟩

theorem delimited_jsonOption : Delimited jsonOption := by
  have habsent (text : Text) (r s : List UInt8) : Json.null ++ r ≠ jsonString text ++ s := by
    obtain ⟨word, hword⟩ := jsonString_cons text
    simp [hword, Json.null]
  intro o o' r s h
  apply delimited_jsonString.option habsent
  cases o <;> cases o' <;> exact h

/-- The end of an object whose members are told already. -/
theorem delimited_end : Delimited fun _ : Unit => Json.objectRest [] :=
  fun _ _ _ _ h => ⟨rfl, List.append_cancel_left h⟩

theorem FileInput.delimited_toJson : Delimited FileInput.toJson := by
  have hdigest := Json.delimited_member (utf8 "digest".toList) delimited_jsonString fun _ => delimited_end
  have hpath := Json.delimited_member (utf8 "path".toList) delimited_jsonString fun _ => hdigest.enclose [44] []
  intro ⟨path, digest⟩ ⟨path', digest'⟩ r s h
  simp only [FileInput.toJson, jsonField, Json.object_cons, Json.objectRest, List.cons_append] at h
  have hparts := hpath (path, digest, ()) (path', digest', ()) r s (by simpa [Json.objectRest] using h)
  simpa using hparts

/-- The rest of an environment input after its digest. -/
def normalizedRest (normalized : Bool) : List UInt8 :=
  Json.objectRest (if normalized then [jsonField "normalized" (Json.bool true)] else [])

theorem delimited_normalizedRest : Delimited normalizedRest := by
  apply Delimited.of_prefix_free
  decide +kernel

theorem EnvInput.toJson_eq (e : EnvInput) : EnvInput.toJson e =
    123 :: (Json.member (utf8 "name".toList) (jsonString e.name) ++
      44 :: (Json.member (utf8 "value_digest".toList) (jsonOption e.valueDigest) ++ normalizedRest e.normalized)) := by
  simp [EnvInput.toJson, Json.object_cons, Json.objectRest, jsonField, normalizedRest]

theorem EnvInput.delimited_toJson : Delimited EnvInput.toJson := by
  have hdigest := Json.delimited_member (utf8 "value_digest".toList) delimited_jsonOption
    fun _ => delimited_normalizedRest
  have hname := Json.delimited_member (utf8 "name".toList) delimited_jsonString fun _ => hdigest.enclose [44] []
  intro ⟨name, value, normalized⟩ ⟨name', value', normalized'⟩ r s h
  rw [EnvInput.toJson_eq, EnvInput.toJson_eq] at h
  have hparts := hname (name, value, normalized) (name', value', normalized') r s (by simpa using h)
  simpa using hparts

theorem toJson_ne_close : (∀ f : FileInput, ∃ c word, f.toJson = c :: word ∧ c ≠ 93) ∧
    ∀ e : EnvInput, ∃ c word, e.toJson = c :: word ∧ c ≠ 93 :=
  ⟨fun _ => ⟨123, _, rfl, by decide⟩, fun _ => ⟨123, _, rfl, by decide⟩⟩

/-! ## Fields told by their lengths -/

theorem delimited_leU64 {m n : Nat} (hm : m < 2 ^ 64) (hn : n < 2 ^ 64) {r s : List UInt8}
    (h : leU64 m ++ r = leU64 n ++ s) : m = n ∧ r = s := by
  obtain ⟨hlen, hrest⟩ := List.append_inj h (by simp [leU64])
  exact ⟨leBytes_inj hm hn hlen, hrest⟩

theorem delimited_hashKeyField {α : Type} {encode : α → List UInt8} (name : Text) (h : Delimited encode) :
    Delimited fun a => hashKeyField name (encode a) := by
  intro a b r s heq
  simp only [hashKeyField, List.append_assoc, List.append_cancel_left_eq] at heq
  obtain ⟨-, hbytes⟩ := List.append_inj heq (by simp [leU64])
  exact h a b r s hbytes

/-- The static key stands as it is, so that only its length ends it. -/
theorem delimited_staticField (name : Text) : Delimited fun key : Str => hashKeyField name (utf8 key.text) := by
  intro ⟨text, hfits⟩ ⟨text', hfits'⟩ r s h
  simp only [hashKeyField, List.append_assoc, List.append_cancel_left_eq] at h
  obtain ⟨hlen, hbytes⟩ := delimited_leU64 hfits hfits' h
  obtain ⟨htext, hrest⟩ := List.append_inj hbytes hlen
  have : text = text' := utf8_injective htext
  subst this
  exact ⟨rfl, hrest⟩

theorem actionKeyBytes_inj {key key' : Str} {files files' hostFiles hostFiles' : List FileInput}
    {environment environment' : List EnvInput}
    (h : actionKeyBytes key files hostFiles environment = actionKeyBytes key' files' hostFiles' environment') :
    key = key' ∧ files = files' ∧ hostFiles = hostFiles' ∧ environment = environment' := by
  have hfiles := Json.delimited_array FileInput.delimited_toJson toJson_ne_close.1
  have hinputs := Json.delimited_array EnvInput.delimited_toJson toJson_ne_close.2
  simp only [actionKeyBytes, List.append_assoc] at h
  obtain ⟨hkey, h⟩ := delimited_staticField _ key key' _ _ h
  obtain ⟨hleft, h⟩ := delimited_hashKeyField _ hfiles files files' _ _ h
  obtain ⟨hright, h⟩ := delimited_hashKeyField _ hfiles hostFiles hostFiles' _ _ h
  have henv := (delimited_hashKeyField _ hinputs).injective h
  exact ⟨hkey, hleft, hright, henv⟩

/-- No two actions have one key, if no two inputs have one digest. -/
theorem compilerActionKey_inj {digest : List UInt8 → Text} (hdigest : Function.Injective digest)
    {key key' : Str} {files files' hostFiles hostFiles' : List FileInput} {environment environment' : List EnvInput}
    (h : compilerActionKey digest key files hostFiles environment =
      compilerActionKey digest key' files' hostFiles' environment') :
    key = key' ∧ files = files' ∧ hostFiles = hostFiles' ∧ environment = environment' :=
  actionKeyBytes_inj (hdigest h)

/-- A digest without collisions, for the example: each byte as a character. -/
def spelled (bytes : List UInt8) : Text := bytes.map Char.ofUInt8

theorem spelled_injective : Function.Injective spelled := by
  apply List.map_injective_iff.2
  intro a b h
  have hval : a.toUInt32.toNat = b.toUInt32.toNat := congrArg (fun c => c.val.toNat) h
  simpa only [UInt8.toNat_toUInt32, UInt8.toNat_inj] using hval

/-- A file read and one read of the host are not one. -/
theorem compilerActionKey_host : compilerActionKey spelled ⟨"key".toList, by decide +kernel⟩
      [⟨"a.rs".toList, "0".toList⟩] [] [] ≠
    compilerActionKey spelled ⟨"key".toList, by decide +kernel⟩ [] [⟨"a.rs".toList, "0".toList⟩] [] := by
  intro h
  have hsame := compilerActionKey_inj spelled_injective h
  exact absurd hsame.2.1 (by decide)

end Bellows.Core
