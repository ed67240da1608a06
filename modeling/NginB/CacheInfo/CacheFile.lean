import NginB.Lua.Number
import NginB.Program.LittleEndian

/-! # The header of a cache file, rewritten in place

`cache_info` reads the header at the front of a cache file into a global, adds to its expiry, sets
the offset of the body, and writes the header back. `main` drops what the three functions return.
-/
namespace NginB.CacheInfo
open NginB.Program
open NginB.Lua (isDigit digitsValue)

abbrev Bytes := List UInt8

/-- `ngx_http_file_cache_header_t` of a 64-bit machine, with the bytes that fill it up to 40. -/
structure CacheHeader where
  validSec : Word 8
  lastModified : Word 8
  date : Word 8
  crc32 : Word 4
  validMsec : Word 2
  headerStart : Word 2
  bodyStart : Word 2
  fill : Word 6
  deriving DecidableEq

def headerSize : ℕ := 40

def CacheHeader.read (bs : Bytes) : CacheHeader where
  validSec := readWord 8 bs
  lastModified := readWord 8 (bs.drop 8)
  date := readWord 8 (bs.drop 16)
  crc32 := readWord 4 (bs.drop 24)
  validMsec := readWord 2 (bs.drop 28)
  headerStart := readWord 2 (bs.drop 30)
  bodyStart := readWord 2 (bs.drop 32)
  fill := readWord 6 (bs.drop 34)

def CacheHeader.middle (h : CacheHeader) : Bytes :=
  wordBytes 8 h.lastModified ++ (wordBytes 8 h.date ++ (wordBytes 4 h.crc32 ++
    (wordBytes 2 h.validMsec ++ wordBytes 2 h.headerStart)))

def CacheHeader.bytes (h : CacheHeader) : Bytes :=
  wordBytes 8 h.validSec ++ (h.middle ++ (wordBytes 2 h.bodyStart ++ wordBytes 6 h.fill))

structure File where
  content : Bytes
  readable : Bool
  writable : Bool
  deriving DecidableEq

def isSpace (b : UInt8) : Bool := b = 32 || (9 ≤ b && b ≤ 13)

/-- `strtol` in base 10, which `%d` calls too: `none` where there is no digit. -/
def strtol (s : Bytes) : Option ℤ :=
  let s := s.dropWhile isSpace
  let unsigned := if s.head? = some 45 ∨ s.head? = some 43 then s.tail else s
  let digits := unsigned.takeWhile isDigit
  if digits = [] then none
  else if s.head? = some 45 then some (max (-(digitsValue digits : ℤ)) (-2 ^ 63))
  else some (min (digitsValue digits : ℤ) (2 ^ 63 - 1))

def atoi (s : Bytes) : BitVec 32 := BitVec.ofInt 32 ((strtol s).getD 0)

/-- `sscanf(expired, "%c%d", &ope, &secs)`, where both are read. -/
def scanExpired : Bytes → Option (UInt8 × BitVec 32)
  | [] => none
  | ope :: rest => (strtol rest).map fun n => (ope, BitVec.ofInt 32 n)

section
variable (torn : Bytes → CacheHeader)

/-- `cache_header_show`. A file that ends inside the header leaves in the global what `fread` makes of
it, `torn`. -/
def cacheHeaderShow (file : File) (cacheHeader : CacheHeader) : CacheHeader :=
  if file.readable then
    if headerSize ≤ file.content.length then .read file.content else torn file.content
  else cacheHeader

def cacheHeaderBodyoffsetModify (bodyoffset : Bytes) (cacheHeader : CacheHeader) : ℤ × CacheHeader :=
  (0, { cacheHeader with bodyStart := (atoi bodyoffset).setWidth 16 })

def cacheHeaderExpiredModify (expired : Bytes) (cacheHeader : CacheHeader) : ℤ × CacheHeader :=
  match scanExpired expired with
  | none => (-1, cacheHeader)
  | some (ope, secs) =>
    if ope = 43 then (0, { cacheHeader with validSec := cacheHeader.validSec + secs.signExtend 64 })
    else (0, { cacheHeader with validSec := cacheHeader.validSec - secs.signExtend 64 })

/-- `update_cache_file`: `rb+` opens a file that may be read and written. -/
def updateCacheFile (file : File) (cacheHeader : CacheHeader) : ℤ × File :=
  if file.readable ∧ file.writable then
    (0, { file with content := cacheHeader.bytes ++ file.content.drop headerSize })
  else (-2, file)

/-- `main`, on the file that `argv[1]` names: the file after it. The last call of `cache_header_show`
only prints. -/
def main (argv : List Bytes) (file : File) : File :=
  let cacheHeader := cacheHeaderShow torn file ⟨0, 0, 0, 0, 0, 0, 0, 0⟩
  match argv with
  | [_, _, expired] => (updateCacheFile file (cacheHeaderExpiredModify expired cacheHeader).2).2
  | [_, _, expired, bodyoffset] =>
    (updateCacheFile file (cacheHeaderBodyoffsetModify bodyoffset
      (cacheHeaderExpiredModify expired cacheHeader).2).2).2
  | _ => file

end

def File.Whole (file : File) : Prop := file.readable = true ∧ headerSize ≤ file.content.length

/-- What a run keeps of the file: all of it where a step fails, and else every byte outside of the
expiry and, where an offset is given, of the offset of the body. -/
structure Keeps (expired : Bytes) (bodyoffset : Option Bytes) (file after : File) : Prop where
  failed : ¬ file.Whole ∨ scanExpired expired = none ∨ file.writable = false → after.content = file.content
  changed : file.Whole → scanExpired expired ≠ none → ∀ i, 8 ≤ i →
    ¬ (bodyoffset.isSome = true ∧ 32 ≤ i ∧ i < 34) → after.content[i]? = file.content[i]?

section Bytes
variable {h : CacheHeader} {bs : Bytes}

theorem middle_length : h.middle.length = 24 := by simp [CacheHeader.middle]

theorem bytes_length : h.bytes.length = headerSize := by
  simp [CacheHeader.bytes, middle_length, headerSize]

/-- A header that is read and written again is the bytes that it was read from. -/
theorem bytes_read (hlen : headerSize ≤ bs.length) : (CacheHeader.read bs).bytes = bs.take headerSize := by
  unfold headerSize at *
  have hfield : ∀ (n k : ℕ), k + n ≤ bs.length → wordBytes n (readWord n (bs.drop k)) = (bs.drop k).take n := by
    intro n k hk
    apply wordBytes_readWord
    rw [List.length_drop]
    omega
  have hjoin : ∀ (n m k : ℕ), (bs.drop k).take n ++ (bs.drop (k + n)).take m = (bs.drop k).take (n + m) := by
    intro n m k
    rw [List.take_add, List.drop_drop]
  have hfirst : wordBytes 8 (readWord 8 bs) = (bs.drop 0).take 8 := hfield 8 0 (by omega)
  rw [CacheHeader.bytes, CacheHeader.middle]
  simp only [CacheHeader.read]
  rw [hfirst, hfield 8 8 (by omega), hfield 8 16 (by omega), hfield 4 24 (by omega),
    hfield 2 28 (by omega), hfield 2 30 (by omega), hfield 2 32 (by omega), hfield 6 34 (by omega),
    hjoin 2 2 28, hjoin 4 4 24, hjoin 8 8 16, hjoin 8 16 8, hjoin 2 6 32, hjoin 24 8 8, hjoin 8 32 0,
    List.drop_zero]

theorem bytes_validSec (v : Word 8) {i : ℕ} (hi : 8 ≤ i) :
    ({ h with validSec := v } : CacheHeader).bytes[i]? = h.bytes[i]? :=
  getElem?_wordBytes [] _ v h.validSec (.inr (by simpa using hi))

/-- Another offset leaves the bytes before and behind it. -/
theorem bytes_bodyStart (v : Word 2) {i : ℕ} (hi : ¬ (32 ≤ i ∧ i < 34)) :
    ({ h with bodyStart := v } : CacheHeader).bytes[i]? = h.bytes[i]? := by
  have hfront : (wordBytes 8 h.validSec ++ h.middle).length = 32 := by simp [middle_length]
  have hword := getElem?_wordBytes (wordBytes 8 h.validSec ++ h.middle) (wordBytes 6 h.fill) v
    h.bodyStart (i := i) (by omega)
  rw [List.append_assoc, List.append_assoc] at hword
  exact hword

theorem bytes_bodyStart_eq {v : Word 2} :
    ({ h with bodyStart := v } : CacheHeader).bytes = h.bytes ↔ v = h.bodyStart := by
  constructor
  · intro heq
    have hmiddle : ({ h with bodyStart := v } : CacheHeader).middle = h.middle := rfl
    rw [CacheHeader.bytes, CacheHeader.bytes, hmiddle] at heq
    have hoffset := List.append_cancel_left (List.append_cancel_left heq)
    exact wordBytes_inj.mp (List.append_cancel_right hoffset)
  · rintro rfl
    rfl

end Bytes

def modified (expired : Bytes) (bodyoffset : Option Bytes) (h : CacheHeader) : CacheHeader :=
  match bodyoffset with
  | none => (cacheHeaderExpiredModify expired h).2
  | some off => (cacheHeaderBodyoffsetModify off (cacheHeaderExpiredModify expired h).2).2

section Run
variable {torn : Bytes → CacheHeader} {file : File} {expired : Bytes} {bodyoffset : Option Bytes}
  {h : CacheHeader} {prog fname : Bytes}

variable (expired h) in
theorem expiredModify_bytes {i : ℕ} (hi : 8 ≤ i) :
    (cacheHeaderExpiredModify expired h).2.bytes[i]? = h.bytes[i]? := by
  unfold cacheHeaderExpiredModify
  cases scanExpired expired with
  | none => rfl
  | some p =>
    dsimp only
    split
    · exact bytes_validSec _ hi
    · exact bytes_validSec _ hi

theorem expiredModify_malformed (hscan : scanExpired expired = none) :
    (cacheHeaderExpiredModify expired h).2 = h := by
  rw [cacheHeaderExpiredModify, hscan]

variable (expired h) in
/-- The modifications change the expiry, and the offset of the body where one is given. -/
theorem modified_bytes {i : ℕ} (hi : 8 ≤ i) (hoff : ¬ (bodyoffset.isSome = true ∧ 32 ≤ i ∧ i < 34)) :
    (modified expired bodyoffset h).bytes[i]? = h.bytes[i]? := by
  cases bodyoffset with
  | none => exact expiredModify_bytes expired h hi
  | some off =>
    have hout : ¬ (32 ≤ i ∧ i < 34) := fun hin => hoff ⟨rfl, hin⟩
    exact (bytes_bodyStart _ hout).trans (expiredModify_bytes expired h hi)

theorem main_closed (hopen : ¬ (file.readable = true ∧ file.writable = true)) :
    main torn (prog :: fname :: expired :: bodyoffset.toList) file = file := by
  have hupdate : ∀ h, (updateCacheFile file h).2 = file := by
    intro h
    rw [updateCacheFile, if_neg hopen]
  cases bodyoffset with
  | none => exact hupdate _
  | some off => exact hupdate _

variable (torn expired bodyoffset prog fname) in
/-- What a run writes into a file that it can open, in place of as many bytes as a header has. -/
theorem main_open (hopen : file.readable = true ∧ file.writable = true) :
    (main torn (prog :: fname :: expired :: bodyoffset.toList) file).content =
      (modified expired bodyoffset (cacheHeaderShow torn file ⟨0, 0, 0, 0, 0, 0, 0, 0⟩)).bytes ++
        file.content.drop headerSize := by
  have hupdate : ∀ h, (updateCacheFile file h).2.content = h.bytes ++ file.content.drop headerSize := by
    intro h
    rw [updateCacheFile, if_pos hopen]
  cases bodyoffset with
  | none => exact hupdate _
  | some off => exact hupdate _

theorem content_eq (hlen : headerSize ≤ file.content.length) :
    (CacheHeader.read file.content).bytes ++ file.content.drop headerSize = file.content := by
  rw [bytes_read hlen, List.take_append_drop]

theorem modified_malformed (hscan : scanExpired expired = none) :
    (modified expired bodyoffset h).bytes = h.bytes ↔
      ∀ off, bodyoffset = some off → (atoi off).setWidth 16 = h.bodyStart := by
  cases bodyoffset with
  | none => simp [modified, expiredModify_malformed hscan]
  | some off =>
    have hoffset : modified expired (some off) h = { h with bodyStart := (atoi off).setWidth 16 } := by
      rw [modified, expiredModify_malformed hscan]
      rfl
    rw [hoffset, bytes_bodyStart_eq]
    constructor
    · rintro heq _ ⟨⟩
      exact heq
    · intro heq
      exact heq off rfl

/-- The bytes that a run writes into a whole file are, outside of the two fields, those of the file. -/
theorem main_bytes (hlen : headerSize ≤ file.content.length) {i : ℕ} (hi : 8 ≤ i)
    (hoff : ¬ (bodyoffset.isSome = true ∧ 32 ≤ i ∧ i < 34)) :
    ((modified expired bodyoffset (.read file.content)).bytes ++ file.content.drop headerSize)[i]? =
      file.content[i]? := by
  have hfield := modified_bytes expired (.read file.content) hi hoff
  have hsame := congrArg (·[i]?) (content_eq hlen)
  rw [← hsame]
  by_cases hlt : i < headerSize
  · rw [List.getElem?_append_left (by rwa [bytes_length]), hfield]
    exact (List.getElem?_append_left (by rwa [bytes_length])).symm
  · rw [not_lt] at hlt
    have hbehind : ∀ h : CacheHeader, (h.bytes ++ file.content.drop headerSize)[i]? =
        (file.content.drop headerSize)[i - headerSize]? := by
      intro h
      rw [List.getElem?_append_right (by rwa [bytes_length]), bytes_length]
    rw [hbehind, hbehind]

/-- A whole file keeps what it must where the expiry is read, and where no other offset is written. -/
theorem keeps_whole (hopen : file.readable = true ∧ file.writable = true)
    (hlen : headerSize ≤ file.content.length) :
    Keeps expired bodyoffset file (main torn (prog :: fname :: expired :: bodyoffset.toList) file) ↔
      (scanExpired expired = none → ∀ off, bodyoffset = some off →
        (atoi off).setWidth 16 = (CacheHeader.read file.content).bodyStart) := by
  have hmain := main_open torn expired bodyoffset prog fname hopen
  have hshow : cacheHeaderShow torn file ⟨0, 0, 0, 0, 0, 0, 0, 0⟩ = .read file.content := by
    rw [cacheHeaderShow, if_pos hopen.1, if_pos hlen]
  rw [hshow] at hmain
  have hkept : (modified expired bodyoffset (.read file.content)).bytes ++ file.content.drop headerSize =
      (CacheHeader.read file.content).bytes ++ file.content.drop headerSize ↔
      (modified expired bodyoffset (.read file.content)).bytes = (CacheHeader.read file.content).bytes :=
    List.append_left_inj _
  rw [content_eq hlen, ← hmain] at hkept
  constructor
  · intro hkeeps hscan
    exact (modified_malformed hscan).mp (hkept.mp (hkeeps.failed (.inr (.inl hscan))))
  · intro hoffset
    constructor
    · rintro (hnot | hscan | hw)
      · exact absurd ⟨hopen.1, hlen⟩ hnot
      · exact hkept.mpr ((modified_malformed hscan).mpr (hoffset hscan))
      · exact absurd (hopen.2.symm.trans hw) (by decide)
    · intro _ _ i hi hoff
      rw [hmain]
      exact main_bytes hlen hi hoff

theorem not_keeps_short (hopen : file.readable = true ∧ file.writable = true)
    (hlen : ¬ headerSize ≤ file.content.length) :
    ¬ Keeps expired bodyoffset file (main torn (prog :: fname :: expired :: bodyoffset.toList) file) := by
  intro hkeeps
  have hsame := hkeeps.failed (.inl fun hwhole => hlen hwhole.2)
  rw [main_open torn expired bodyoffset prog fname hopen] at hsame
  have hlength := congrArg List.length hsame
  rw [List.length_append, bytes_length] at hlength
  omega

/-- A run keeps what it must of a file just when it cannot write it, or the file has a whole header
and a malformed expiry comes without an offset, or with the offset that stands there. -/
theorem keeps_iff (torn : Bytes → CacheHeader) (file : File) (prog fname expired : Bytes)
    (bodyoffset : Option Bytes) :
    Keeps expired bodyoffset file (main torn (prog :: fname :: expired :: bodyoffset.toList) file) ↔
      ¬ (file.readable = true ∧ file.writable = true) ∨
      headerSize ≤ file.content.length ∧ (scanExpired expired = none → ∀ off, bodyoffset = some off →
        (atoi off).setWidth 16 = (CacheHeader.read file.content).bodyStart) := by
  by_cases hopen : file.readable = true ∧ file.writable = true
  · rw [or_iff_right (not_not.mpr hopen)]
    by_cases hlen : headerSize ≤ file.content.length
    · rw [keeps_whole hopen hlen, and_iff_right hlen]
    · exact iff_of_false (not_keeps_short hopen hlen) fun h => hlen h.1
  · apply iff_of_true
    · rw [main_closed hopen]
      exact ⟨fun _ => rfl, fun _ _ _ _ _ => rfl⟩
    · exact .inl hopen

end Run

def oneByte : File := ⟨[0], true, true⟩

/-- The header of a short file cannot be read, and is written all the same. -/
theorem short_file_written : ¬ ∀ (file : File) (expired : Bytes),
    Keeps expired none file (main CacheHeader.read [[], [], expired] file) := by
  intro h
  have hkept := (h oneByte [43, 49]).failed (.inl fun hwhole => absurd hwhole.2 (by decide))
  exact absurd hkept (by decide)

end NginB.CacheInfo
