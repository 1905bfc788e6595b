import Stroopwafel.ByteFile
import Stroopwafel.Cbc
import Stroopwafel.Memory
import Stroopwafel.Sha1

set_option autoImplicit false

namespace Stroopwafel.Anpack

open Memory ByteFile Cbc

section Encrypt

-- AES under each key, and SHA-1.
variable {Key : Type} (aes : Key → BlockCipher Byte 16) (sha1 : Incremental Byte)

/-- `AES.new(key, AES.MODE_CBC, iv).encrypt(data)`, where a part of a block is a ValueError -/
def cbcEncrypt (key : Key) (iv data : List Byte) : Option (List Byte) :=
  if data.length % 16 = 0 then some (chain (aes key) BitVec.xor iv data) else none

structure Encrypted where
  file : File Byte
  buffer : List Byte
  hash : sha1.State

def encryptLoop (key : Key) (noCrypto : Bool) (file : File Byte) (buffer : List Byte)
    (hash : sha1.State) (iv : List Byte) : Option (Encrypted sha1) :=
  -- an iv of another length is a ValueError of `AES.new`
  if iv.length ≠ 16 then none
  else
    let dec := (file.read 0x4000).1
    if _ : dec.length < 0x10 then some ⟨(file.read 0x4000).2, buffer, hash⟩
    else do
      let enc ← (if noCrypto then some dec else cbcEncrypt aes key iv dec)
      encryptLoop key noCrypto (file.read 0x4000).2 (buffer ++ enc) (sha1.update hash enc)
        (Cbc.tail 0x10 enc)
termination_by file.rest.length
decreasing_by
  rw [read_rest, List.length_drop]
  have enough : ¬ (file.rest.take 0x4000).length < 0x10 := by assumption
  rw [List.length_take] at enough
  omega

/-- `encrypt`, with the key and the iv that the source has as constants -/
def encrypt (key : Key) (iv : List Byte) (file : File Byte) (offset : Nat) (noCrypto : Bool) :
    Option (File Byte × sha1.Digest) := do
  let read ← encryptLoop aes sha1 key noCrypto (file.seek offset) [] sha1.init iv
  return ((read.file.seek offset).write 0#8 read.buffer, sha1.digest read.hash)

def mode (key : Key) (noCrypto : Bool) : Feedback Byte 16 :=
  if noCrypto then plain else cbc (aes key) BitVec.xor

theorem enc_eq (key : Key) (noCrypto : Bool) (iv dec : List Byte) (aligned : 16 ∣ dec.length) :
    (if noCrypto then some dec else cbcEncrypt aes key iv dec) =
      some ((mode aes key noCrypto).output iv dec) := by
  unfold cbcEncrypt mode
  rw [if_pos (Nat.mod_eq_zero_of_dvd aligned)]
  cases noCrypto with
  | true => rfl
  | false => rfl

/-- The pieces come to the same as all that is left of the file. -/
theorem encryptLoop_eq (key : Key) (noCrypto : Bool) (file : File Byte) (buffer : List Byte)
    (hash : sha1.State) (iv : List Byte) (whole : iv.length = 16)
    (aligned : 16 ∣ file.rest.length) :
    ∃ read : File Byte, read.content = file.content ∧
      encryptLoop aes sha1 key noCrypto file buffer hash iv =
        some ⟨read, buffer ++ (mode aes key noCrypto).output iv file.rest,
          sha1.update hash ((mode aes key noCrypto).output iv file.rest)⟩ := by
  have split : (file.read 0x4000).1 ++ (file.read 0x4000).2.rest = file.rest := by
    rw [read_rest]
    exact List.take_append_drop 0x4000 file.rest
  have size : (file.read 0x4000).1.length = min 0x4000 file.rest.length := List.length_take
  have left : (file.read 0x4000).2.rest.length = file.rest.length - 0x4000 := by
    rw [read_rest, List.length_drop]
  have piece : 16 ∣ (file.read 0x4000).1.length := by omega
  have length := (mode aes key noCrypto).output_length iv _ whole piece
  have append := (mode aes key noCrypto).output_append iv _ (file.read 0x4000).2.rest whole piece
  rw [encryptLoop, if_neg (by omega)]
  by_cases short : (file.read 0x4000).1.length < 0x10
  · -- what is left is shorter than a block, so there is nothing left
    have nothing : (mode aes key noCrypto).output iv file.rest = [] := by
      have none : (file.read 0x4000).2.rest = [] := List.eq_nil_of_length_eq_zero (by omega)
      apply List.eq_nil_of_length_eq_zero
      rw [← split, none, List.append_nil, length]
      omega
    refine ⟨(file.read 0x4000).2, rfl, ?_⟩
    rw [dif_pos short, nothing, List.append_nil, sha1.update_nil]
  · obtain ⟨read, content, rest⟩ := encryptLoop_eq key noCrypto (file.read 0x4000).2
      (buffer ++ (mode aes key noCrypto).output iv (file.read 0x4000).1)
      (sha1.update hash ((mode aes key noCrypto).output iv (file.read 0x4000).1))
      (Cbc.tail 16 ((mode aes key noCrypto).output iv (file.read 0x4000).1))
      (tail_length _ (by omega)) (by omega)
    refine ⟨read, content, ?_⟩
    rw [dif_neg short, enc_eq aes key noCrypto iv _ piece]
    refine Eq.trans rest ?_
    rw [← split, append, tail_append iv _ (by omega), List.append_assoc, sha1.update_append]
termination_by file.rest.length
decreasing_by omega

theorem encrypt_iv (key : Key) (iv : List Byte) (file : File Byte) (offset : Nat) (noCrypto : Bool)
    {result : File Byte × sha1.Digest}
    (ok : encrypt aes sha1 key iv file offset noCrypto = some result) : iv.length = 16 := by
  unfold encrypt at ok
  obtain ⟨read, loop, _⟩ := Option.bind_eq_some_iff.mp ok
  rw [encryptLoop] at loop
  split at loop
  · cases loop
  · exact Decidable.of_not_not ‹_›

theorem encrypt_mode (key : Key) (iv : List Byte) (file : File Byte) (offset : Nat)
    (noCrypto : Bool) (whole : iv.length = 16) (aligned : 16 ∣ (file.content.drop offset).length) :
    ∃ pos, encrypt aes sha1 key iv file offset noCrypto =
      some (⟨file.content.take offset ++
          (mode aes key noCrypto).output iv (file.content.drop offset), pos⟩,
        sha1.oneShot ((mode aes key noCrypto).output iv (file.content.drop offset))) := by
  have length := (mode aes key noCrypto).output_length iv _ whole aligned
  obtain ⟨read, content, loop⟩ := encryptLoop_eq aes sha1 key noCrypto (file.seek offset) []
    sha1.init iv whole aligned
  unfold encrypt
  rw [loop, Option.bind_eq_bind, Option.bind_some, List.nil_append]
  rw [← overwrite_tail 0#8 file.content offset _ length]
  unfold File.write
  rw [seek_content, seek_pos, content]
  exact ⟨_, rfl⟩

/-- The body is encrypted as one piece or left as it is, and its digest is returned. -/
theorem encrypt_oneShot (key : Key) (iv : List Byte) (file : File Byte) (offset : Nat)
    (noCrypto : Bool) (whole : iv.length = 16) (aligned : 16 ∣ file.content.length - offset) :
    let body := file.content.drop offset
    let result := if noCrypto then body else chain (aes key) BitVec.xor iv body
    result.length = body.length ∧
      ∃ pos, encrypt aes sha1 key iv file offset noCrypto =
        some (⟨file.content.take offset ++ result, pos⟩, sha1.oneShot result) := by
  intro body result
  have output : (mode aes key noCrypto).output iv body = result := by
    unfold mode
    cases noCrypto with
    | true => rfl
    | false => rfl
  have multiple : 16 ∣ body.length := by
    rw [List.length_drop]
    exact aligned
  rw [← output]
  exact ⟨(mode aes key noCrypto).output_length iv body whole multiple,
    encrypt_mode aes sha1 key iv file offset noCrypto whole multiple⟩

end Encrypt

section Sample

def zeroBlock : List Byte := List.replicate 16 0#8

/-- AES under the key of zeros, on the block of zeros -/
def zeroAes : Unit → BlockCipher Byte 16 := fun _ =>
  ⟨fun _ => [0x66#8, 0xE9#8, 0x4B#8, 0xD4#8, 0xEF#8, 0x8A#8, 0x2C#8, 0x3B#8, 0x88#8, 0x4C#8, 0xFA#8,
    0x59#8, 0xCA#8, 0x34#8, 0x2B#8, 0x2E#8], fun _ _ => rfl⟩

def sha1Sample : Incremental Byte where
  State := List Byte
  Digest := List Byte
  init := []
  update s data := s ++ data
  digest := Sha1.digest
  update_nil := List.append_nil
  update_append s xs ys := (List.append_assoc s xs ys).symm

def headerSample : List Byte := List.replicate 0x200 0#8

/-- A body of two pieces -/
def bodySample : List Byte := List.replicate 0x4010 0x5A#8

def fileSample : File Byte := ⟨headerSample ++ bodySample, 0⟩

theorem encrypt_oneShot_noCrypto :
    ∃ pos, encrypt zeroAes sha1Sample () zeroBlock fileSample 0x200 true =
      some (⟨headerSample ++ bodySample, pos⟩, Sha1.digest bodySample) := by
  have header : headerSample.length = 0x200 := List.length_replicate
  have body : bodySample.length = 0x4010 := List.length_replicate
  have content : fileSample.content = headerSample ++ bodySample := rfl
  have aligned : 16 ∣ fileSample.content.length - 0x200 := by
    rw [content, List.length_append, header, body]
    decide
  have written := (encrypt_oneShot zeroAes sha1Sample () zeroBlock fileSample 0x200 true rfl
    aligned).2
  simp only [if_true, content, List.take_left' header, List.drop_left' header] at written
  exact written

end Sample

end Stroopwafel.Anpack
