import Stroopwafel.ByteFile
import Stroopwafel.SaltPatchRead
import Stroopwafel.Sha1Digest

set_option autoImplicit false

namespace Stroopwafel.SaltPatch

open Memory ByteFile Sha1Ctx

def getFsize (f : File Byte) : Nat × File Byte := (f.content.length, f.seek 0)

/-- `for(size_t i = 0; i < size; i += 0x2000)` -/
def hashFile (size i : Nat) (f : File Byte) (sha : Ctx) : Ctx :=
  if _ : i < size then
    let curSize := if size - i < 0x2000 then size - i else 0x2000
    let (filebuf, f) := f.read curSize
    hashFile size (i + 0x2000) f (sha1Hash filebuf sha)
  else sha
termination_by size - i
decreasing_by omega

/-- `sha` is what the stack holds where the context is. -/
def writeFooterAndHash (sha : Ctx) (fPatch : File Byte) : File Byte :=
  let fPatch := fPatch.write 0#8 (bytes32 0xFF#32)
  let sha := sha1Begin sha
  let (size, fPatch) := getFsize fPatch
  let hash := sha1End (hashFile size 0 fPatch sha)
  (fPatch.seek 12).write 0#8 hash

/-- The file as `main` writes it: the header, the chunks, and the footer with the hash. -/
def writePatchFile (sha : Ctx) (items : List Item) : Option (File Byte) := do
  let patch ← items.foldlM Item.write writePatchHeader
  return writeFooterAndHash sha ⟨patch, patch.length⟩

/-- The file with the hash in its header zeroed. -/
def withoutHash (file : List Byte) : List Byte :=
  file.take 12 ++ List.replicate 20 0#8 ++ file.drop 32

theorem hashFile_taken (size i : Nat) (f : File Byte) (sha : Ctx) (xs : List Byte)
    (left : f.rest.length = size - i) (taken : Taken sha xs) :
    Taken (hashFile size i f sha) (xs ++ f.rest) := by
  unfold hashFile
  by_cases more : i < size
  · rw [dif_pos more]
    have bounded : (if size - i < 0x2000 then size - i else 0x2000) ≤ 0x2000 ∧
        size - i - (if size - i < 0x2000 then size - i else 0x2000) = size - (i + 0x2000) := by
      split <;> omega
    generalize (if size - i < 0x2000 then size - i else 0x2000) = curSize at bounded ⊢
    have piece : (f.read curSize).1.length < 2 ^ 32 := by
      rw [read_data, List.length_take]
      omega
    have rest := read_rest f curSize
    have later := hashFile_taken size (i + 0x2000) (f.read curSize).2
      (sha1Hash (f.read curSize).1 sha) (xs ++ (f.read curSize).1)
      (by rw [rest, List.length_drop]; omega) (taken.sha1Hash _ piece)
    rw [List.append_assoc, rest, read_data, List.take_append_drop] at later
    exact later
  · have none : f.rest = [] := List.eq_nil_of_length_eq_zero (by omega)
    rw [dif_neg more, none, List.append_nil]
    exact taken
termination_by size - i
decreasing_by omega

theorem writeFooterAndHash_eq (sha : Ctx) (patch : List Byte) (header : 32 ≤ patch.length) :
    (writeFooterAndHash sha ⟨patch, patch.length⟩).content =
      (patch ++ bytes32 0xFF#32).take 12 ++ Sha1.digest (patch ++ bytes32 0xFF#32) ++
        (patch ++ bytes32 0xFF#32).drop 32 := by
  have appended : (File.mk patch patch.length).write 0#8 (bytes32 0xFF#32) =
      ⟨patch ++ bytes32 0xFF#32, patch.length + 4⟩ := by
    unfold File.write
    rw [overwrite_end]
    rfl
  unfold writeFooterAndHash getFsize
  rw [appended]
  dsimp only
  have whole : Taken _ (patch ++ bytes32 0xFF#32) :=
    hashFile_taken (patch ++ bytes32 0xFF#32).length 0
      (File.seek ⟨patch ++ bytes32 0xFF#32, patch.length + 4⟩ 0) (sha1Begin sha) []
      rfl (sha1Begin_taken sha)
  rw [whole.sha1End]
  unfold File.write
  have inside : 12 ≤ (patch ++ bytes32 0xFF#32).length := by
    rw [List.length_append]
    omega
  have placed := overwrite_inside 0#8 _ 12 (Sha1.digest (patch ++ bytes32 0xFF#32)) inside
  rw [Sha1.digest_length] at placed
  exact placed

theorem withoutHash_eq (front hash back : List Byte) (size : front.length = 12)
    (hashSize : hash.length = 20) :
    withoutHash (front ++ hash ++ back) = front ++ List.replicate 20 0#8 ++ back := by
  have whole : (front ++ hash).length = 32 := by
    rw [List.length_append, size, hashSize]
  have first : (front ++ hash ++ back).take 12 = front := by
    rw [List.append_assoc, List.take_left' size]
  unfold withoutHash
  rw [first, List.drop_left' whole]

/-- The header of a finished file holds the hash of the file with that hash zeroed, and the file is
the one that is read back. -/
theorem writePatchFile_checksum (sha : Ctx) (items : List Item) :
    ∃ file hash, writePatchFile sha items = some file ∧
      hash.val = Sha1.digest (withoutHash file.content) ∧
      (file.content.drop 12).take 20 = hash.val ∧ writeFile hash items = some file.content := by
  have words := writeItems_words items writePatchHeader
  generalize (items.flatMap Item.words).flatMap bytes32 = chunks at words
  have long : 32 ≤ (writePatchHeader ++ chunks).length := by
    rw [List.length_append]
    exact Nat.le_add_right 32 _
  have content := writeFooterAndHash_eq sha (writePatchHeader ++ chunks) long
  -- twelve bytes, the hash, and the rest
  have split : writePatchHeader ++ chunks ++ bytes32 0xFF#32 =
      (magic ++ bytes32 1#32) ++ List.replicate 20 0#8 ++ (chunks ++ bytes32 0xFF#32) :=
    List.append_assoc ..
  have front : (magic ++ bytes32 1#32).length = 12 := rfl
  have header : ((magic ++ bytes32 1#32) ++ List.replicate 20 (0#8 : Byte)).length = 32 := rfl
  have first : ((magic ++ bytes32 1#32) ++ List.replicate 20 0#8 ++
      (chunks ++ bytes32 0xFF#32)).take 12 = magic ++ bytes32 1#32 := by
    rw [List.append_assoc, List.take_left' front]
  generalize made : writeFooterAndHash sha ⟨writePatchHeader ++ chunks,
    (writePatchHeader ++ chunks).length⟩ = file at content
  generalize hashed : Sha1.digest (writePatchHeader ++ chunks ++ bytes32 0xFF#32) = hash at content
  have size : hash.length = 20 := by rw [← hashed, Sha1.digest_length]
  refine ⟨file, ⟨hash, size⟩, ?_, ?_, ?_, ?_⟩
  · unfold writePatchFile
    rw [words, ← made]
    rfl
  · rw [content, split, first, List.drop_left' header, withoutHash_eq _ _ _ front size, ← split,
      hashed]
  · rw [content, split, first, List.append_assoc, List.drop_left' front, List.take_left' size]
  · unfold writeFile
    rw [words, content]
    rfl

end Stroopwafel.SaltPatch
