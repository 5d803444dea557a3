import WasmRecorder.Lib.Checked
import WasmRecorder.Lib.Crc

/-!
# Compilation cache entries

What the engine stores of a compiled module, and how it is read back. An entry begins with the
version of the engine that wrote it; the reader takes as many bytes for the header as its own
version needs. Behind the header are the offsets of the functions, the executable with its
checksum, and the source map, whose addresses are relative to the executable.

* `serializeCompiledModule`, `deserializeCompiledModule` — the writer and the reader.
* `ValidModule` — a compiled module, with the bounds that its parts have.
* `readHeader_self`, `readHeader_other`, `readBody_front` — what the two halves of the reader do on
  an entry.
* `cache_entry` — a module is read back by the same version, at another address; it is never read
  back by another version, or when a bit of the executable has changed.
-/

namespace Wazevo

open Checked LittleEndian Slice

abbrev Bytes := List UInt8

/-- The Castagnoli polynomial. -/
def crc : BitVec 32 := 0x82F63B78

def checksum (bytes : Bytes) : UInt32 := ⟨Crc.checksum crc bytes⟩

/-- A compiled module. The source map has the offset in the Wasm binary with the address in the
executable, which is at `address`. -/
structure CompiledModule where
  functionOffsets : List Int64
  executable : Bytes
  address : UInt64
  sourceMap : List (UInt64 × UInt64)
  deriving DecidableEq, Repr

/-- A compiled module as the engine makes it: the validation of a module refuses more than `2 ^ 27`
functions, lengths are numbers of 63 bits, and only an executable that is there has a source map. -/
structure ValidModule extends CompiledModule where
  functions_lt : functionOffsets.length < 2 ^ 32
  executable_lt : executable.length < 2 ^ 63
  sourceMap_lt : sourceMap.length < 2 ^ 63
  sourceMap_eq_nil : executable = [] → sourceMap = []

structure Version where
  bytes : Bytes
  length_le : bytes.length ≤ 255

def magic : Bytes := [0x57, 0x41, 0x5A, 0x45, 0x56, 0x4F]

/-! ### The writer -/

def serializeSourceMap (cm : CompiledModule) : Bytes :=
  if 0 < cm.sourceMap.length then
    [1] ++ le64 (UInt64.ofNat cm.sourceMap.length) ++
      cm.sourceMap.flatMap fun e => le64 e.1 ++ le64 (e.2 - cm.address)
  else [0]

/-- What is in front of the executable. -/
def serializeFront (version : Bytes) (cm : CompiledModule) : Bytes :=
  magic ++ [UInt8.ofNat version.length] ++ version ++
    le32 (UInt32.ofNat cm.functionOffsets.length) ++
    cm.functionOffsets.flatMap (fun offset => le64 offset.toUInt64) ++
    le64 (UInt64.ofNat cm.executable.length)

def serializeCompiledModule (version : Bytes) (cm : CompiledModule) : Bytes :=
  serializeFront version cm ++ cm.executable ++ le32 (checksum cm.executable) ++
    serializeSourceMap cm

/-! ### The reader -/

inductive CacheError where
  | header | magic | functionOffset | executableSize | executable | checksum | checksumMismatch
  | sourceMapPresence | sourceMapLength | wasmBinaryOffset | executableOffset
  deriving DecidableEq, Repr

abbrev Reader := StateT Bytes (Except (Fault CacheError))

/-- Read some bytes, all of them or none. -/
def read (n : Nat) (e : CacheError) : Reader Bytes := fun bytes =>
  if n ≤ bytes.length then .ok (bytes.take n, bytes.drop n) else .error (.error e)

def readUint64 (e : CacheError) : Reader UInt64 := do
  return u64At (← read 8 e) 0

def readMany {α : Type} (p : Reader α) : Nat → Reader (List α)
  | 0 => return []
  | n + 1 => do
    let a ← p
    let as ← readMany p n
    return a :: as

def cacheHeaderSize (version : Bytes) : Nat := magic.length + 1 + version.length + 4

/-- The number of functions, unless the entry is of another version. -/
def checkHeader (version header : Bytes) : Except (Fault CacheError) (Option UInt32) :=
  let cachedVersionBegin := magic.length + 1
  let cachedVersionEnd := magic.length + 1 + (header.getD magic.length 0).toNat
  if header.take magic.length ≠ magic then .error (.error .magic)
  else if header.length ≤ cachedVersionEnd then .ok none
  else if slice header cachedVersionBegin cachedVersionEnd ≠ version then .ok none
  else .ok (some (u32At header (header.length - 4)))

def readHeader (version : Bytes) : Reader (Option UInt32) := do
  checkHeader version (← read (cacheHeaderSize version) .header)

/-- The executable. Its checksum is read only when it is not empty. -/
def readExecutable (executableLen : UInt64) : Reader Bytes := do
  if 0 < executableLen then
    let executable ← read executableLen.toNat .executable
    let stored ← read 4 .checksum
    if checksum executable ≠ u32At stored 0 then throw (.error .checksumMismatch)
    else return executable
  else return []

/-- An entry of the source map of an executable at an address. -/
def readMapping (address : UInt64) : Reader (UInt64 × UInt64) := do
  let wasmBinaryOffset ← readUint64 .wasmBinaryOffset
  let executableRelativeOffset ← readUint64 .executableOffset
  return (wasmBinaryOffset, executableRelativeOffset + address)

/-- The source map. The first byte of the executable is asked for, which an empty one does not
have. -/
def readSourceMap (executable : Bytes) (address : UInt64) : Reader (List (UInt64 × UInt64)) := do
  let presence ← read 1 .sourceMapPresence
  if presence = [1] then
    let sourceMapLen ← readUint64 .sourceMapLength
    if executable = [] then throw .panic
    else readMany (readMapping address) sourceMapLen.toNat
  else return []

/-- What is behind the header. -/
def readBody (address : UInt64) (functionsNum : UInt32) : Reader CompiledModule := do
  let offsets ← readMany (readUint64 .functionOffset) functionsNum.toNat
  let executableLen ← readUint64 .executableSize
  let executable ← readExecutable executableLen
  let sourceMap ← readSourceMap executable address
  return { functionOffsets := offsets.map UInt64.toInt64, executable, address, sourceMap }

/-- Read an entry; `none` says that it is stale. The executable is mapped at the address. -/
def deserializeCompiledModule (version : Bytes) (address : UInt64) (entry : Bytes) :
    Except (Fault CacheError) (Option CompiledModule) := do
  match ← readHeader version entry with
  | (none, _) => return none
  | (some functionsNum, rest) => return some (← readBody address functionsNum rest).1

/-! ### Reading what was written -/

section Reading

variable {α β γ : Type} {e : CacheError} {rest : Bytes}

theorem read_bind {n : Nat} {piece : Bytes} {f : Bytes → Reader β} (h : piece.length = n) :
    (read n e >>= f) (piece ++ rest) = f piece rest := by
  change (read n e (piece ++ rest) >>= fun x => f x.1 x.2) = _
  rw [read, if_pos (by rw [List.length_append]; omega), List.take_left' h, List.drop_left' h]
  rfl

theorem readUint64_bind (x : UInt64) {f : UInt64 → Reader β} :
    (readUint64 e >>= f) (le64 x ++ rest) = f x rest := by
  rw [readUint64, bind_assoc, read_bind (length_le64 x)]
  change f (u64At (le64 x) 0) rest = _
  have hx : u64At ([] ++ le64 x ++ []) 0 = x := u64At_append rfl
  rw [List.nil_append, List.append_nil] at hx
  rw [hx]

theorem readMany_bind {p : Reader α} {encode : γ → Bytes} {decode : γ → α} {f : List α → Reader β}
    (h : ∀ c rest (k : α → Reader (List α)), (p >>= k) (encode c ++ rest) = k (decode c) rest)
    (cs : List γ) : (readMany p cs.length >>= f) (cs.flatMap encode ++ rest) =
      f (cs.map decode) rest := by
  -- by induction on the items, each of which leaves the bytes of the others
  have hrun : readMany p cs.length (cs.flatMap encode ++ rest) = .ok (cs.map decode, rest) := by
    induction cs with
    | nil => rfl
    | cons c cs ih =>
      rw [List.length_cons, readMany, List.flatMap_cons, List.append_assoc, h]
      change (readMany p cs.length (cs.flatMap encode ++ rest) >>= _) = _
      rw [ih]
      rfl
  change (readMany p cs.length (cs.flatMap encode ++ rest) >>= fun x => f x.1 x.2) = _
  rw [hrun]
  rfl

end Reading

/-! ### The header -/

section Header

variable {stored version : Bytes} {n : UInt32} {rest : Bytes}

/-- What an entry begins with that the version `stored` wrote. -/
def front (stored : Bytes) : Bytes := magic ++ [UInt8.ofNat stored.length] ++ stored

theorem length_front : (front stored).length = magic.length + 1 + stored.length := by
  rw [front, List.length_append, List.length_append]
  rfl

/-- How a version takes the beginning of an entry that another one may have written. -/
theorem checkHeader_take (h : stored.length ≤ 255) {size : Nat} (hsize : magic.length + 1 ≤ size)
    (hle : size ≤ (front stored ++ rest).length) :
    checkHeader version ((front stored ++ rest).take size) =
      if size ≤ (front stored).length ∨ stored ≠ version then .ok none
      else .ok (some (u32At ((front stored ++ rest).take size) (size - 4))) := by
  have hlen : ((front stored ++ rest).take size).length = size := by
    rw [List.length_take]
    omega
  have hmagic : ((front stored ++ rest).take size).take magic.length = magic := by
    rw [List.take_take, Nat.min_eq_left (by omega), front, List.append_assoc, List.append_assoc,
      List.take_left]
  -- the byte behind the magic is the length of the version that was stored
  have hbyte : (((front stored ++ rest).take size).getD magic.length 0).toNat =
      stored.length := by
    rw [List.getD_eq_getElem?_getD, List.getElem?_take, if_pos (by omega), front, List.append_assoc,
      List.append_assoc, List.getElem?_append_right (Nat.le_refl _), Nat.sub_self]
    change (UInt8.ofNat stored.length).toNat = _
    rw [UInt8.toNat_ofNat']
    exact Nat.mod_eq_of_lt (by omega)
  rw [checkHeader, hmagic, if_neg (not_not_intro rfl), hbyte, hlen, ← length_front]
  -- a header of this size does not hold the whole of a longer version
  by_cases hstale : size ≤ (front stored).length
  · rw [if_pos hstale, if_pos (Or.inl hstale)]
  · have hversion : slice ((front stored ++ rest).take size) (magic.length + 1)
        (front stored).length = stored := by
      rw [slice, List.take_take, Nat.min_eq_left (by omega), List.take_left, front]
      exact List.drop_left' rfl
    rw [if_neg hstale, hversion]
    simp only [hstale, false_or]

theorem readHeader_of_le {entry : Bytes} (h : cacheHeaderSize version ≤ entry.length) :
    readHeader version entry = (checkHeader version (entry.take (cacheHeaderSize version))).map
      fun n => (n, entry.drop (cacheHeaderSize version)) := by
  change (read (cacheHeaderSize version) .header entry >>= _) = _
  rw [read, if_pos h]
  change (liftM (checkHeader version (entry.take (cacheHeaderSize version))) : Reader _)
    (entry.drop (cacheHeaderSize version)) = _
  cases checkHeader version (entry.take (cacheHeaderSize version)) with
  | error e => rfl
  | ok n => rfl

theorem cacheHeaderSize_eq : cacheHeaderSize stored = (front stored).length + 4 := by
  rw [length_front, cacheHeaderSize]

theorem readHeader_self (h : stored.length ≤ 255) :
    readHeader stored (front stored ++ (le32 n ++ rest)) = .ok (some n, rest) := by
  have hlen : (front stored ++ le32 n).length = cacheHeaderSize stored := by
    rw [List.length_append, length_le32, cacheHeaderSize_eq]
  have hle : cacheHeaderSize stored ≤ (front stored ++ (le32 n ++ rest)).length := by
    rw [← List.append_assoc, List.length_append, hlen]
    exact Nat.le_add_right _ _
  -- the number of functions stands at the end of the header
  have hnumber : u32At (front stored ++ le32 n) (front stored).length = n := by
    have hx : u32At (front stored ++ le32 n ++ []) (front stored).length = n := u32At_append rfl
    rwa [List.append_nil] at hx
  rw [readHeader_of_le hle, checkHeader_take h (by rw [cacheHeaderSize]; omega) hle,
    if_neg (by rw [cacheHeaderSize_eq]; simp), ← List.append_assoc, List.take_left' hlen,
    List.drop_left' hlen, cacheHeaderSize_eq, Nat.add_sub_cancel, hnumber]
  rfl

theorem readHeader_other (h : stored.length ≤ 255) (hne : version ≠ stored) :
    (∃ rest', readHeader version (front stored ++ rest) = .ok (none, rest')) ∨
      ∃ e, readHeader version (front stored ++ rest) = .error (.error e) := by
  -- a longer version may need a header that is longer than the entry
  by_cases hle : cacheHeaderSize version ≤ (front stored ++ rest).length
  · refine Or.inl ⟨(front stored ++ rest).drop (cacheHeaderSize version), ?_⟩
    rw [readHeader_of_le hle, checkHeader_take h (by rw [cacheHeaderSize]; omega) hle,
      if_pos (Or.inr hne.symm)]
    rfl
  · refine Or.inr ⟨.header, ?_⟩
    change (read (cacheHeaderSize version) .header (front stored ++ rest) >>= _) = _
    rw [read, if_neg hle]
    rfl

end Header

/-! ### The body -/

section Body

variable {cm : ValidModule} {address : UInt64} {rest : Bytes}

theorem readMapping_bind {β : Type} (base : UInt64) (c : UInt64 × UInt64)
    (k : UInt64 × UInt64 → Reader β) :
    (readMapping address >>= k) (le64 c.1 ++ le64 (c.2 - base) ++ rest) =
      k (c.1, c.2 - base + address) rest := by
  rw [readMapping, bind_assoc, List.append_assoc, readUint64_bind, bind_assoc, readUint64_bind]
  rfl

theorem readSourceMap_eq {executable : Bytes} (h : cm.sourceMap ≠ [] → executable ≠ []) :
    readSourceMap executable address (serializeSourceMap cm.toCompiledModule ++ rest) =
      .ok (cm.sourceMap.map fun e => (e.1, e.2 - cm.address + address), rest) := by
  rw [readSourceMap, serializeSourceMap]
  by_cases hmap : 0 < cm.sourceMap.length
  · have hlen : (UInt64.ofNat cm.sourceMap.length).toNat = cm.sourceMap.length := by
      have := cm.sourceMap_lt
      rw [UInt64.toNat_ofNat']
      exact Nat.mod_eq_of_lt (by omega)
    rw [if_pos hmap, List.append_assoc, List.append_assoc, read_bind (n := 1) rfl, if_pos rfl,
      readUint64_bind, if_neg (h (List.ne_nil_of_length_pos hmap)), hlen,
      ← bind_pure (readMany _ _),
      readMany_bind (fun c rest k => readMapping_bind cm.address c k)]
    rfl
  · have hnil : cm.sourceMap = [] := List.length_eq_zero_iff.mp (by omega)
    rw [if_neg hmap, read_bind (n := 1) rfl, if_neg (by decide), hnil]
    rfl

theorem toNat_executableLen (cm : ValidModule) :
    (UInt64.ofNat cm.executable.length).toNat = cm.executable.length := by
  have := cm.executable_lt
  rw [UInt64.toNat_ofNat']
  exact Nat.mod_eq_of_lt (by omega)

/-- The executable is read if its checksum is right. -/
theorem readExecutable_bind {β : Type} {executable : Bytes} {stored : UInt32} {f : Bytes → Reader β}
    (hlen : executable.length = cm.executable.length) (hpos : 0 < executable.length) :
    (readExecutable (UInt64.ofNat cm.executable.length) >>= f)
        (executable ++ (le32 stored ++ rest)) =
      if checksum executable = stored then f executable rest
      else .error (.error .checksumMismatch) := by
  have hnat := toNat_executableLen cm
  -- only an executable that is there is followed by a checksum
  have hzero : (0 : UInt64) < UInt64.ofNat cm.executable.length := by
    rw [UInt64.lt_iff_toNat_lt, hnat]
    exact hlen ▸ hpos
  have hstored : u32At (le32 stored) 0 = stored := by
    have hx : u32At ([] ++ le32 stored ++ []) 0 = stored := u32At_append rfl
    rwa [List.nil_append, List.append_nil] at hx
  rw [readExecutable, if_pos hzero, bind_assoc, read_bind (hlen.trans hnat.symm), bind_assoc,
    read_bind (length_le32 stored), hstored]
  by_cases hsum : checksum executable = stored
  · rw [if_neg (not_not_intro hsum), if_pos hsum]
    rfl
  · rw [if_pos hsum, if_neg hsum]
    rfl

theorem readBody_front (cm : ValidModule) :
    readBody address (UInt32.ofNat cm.functionOffsets.length)
        (cm.functionOffsets.flatMap (fun offset => le64 offset.toUInt64) ++
          (le64 (UInt64.ofNat cm.executable.length) ++ rest)) =
      (readExecutable (UInt64.ofNat cm.executable.length) >>= fun executable =>
        readSourceMap executable address >>= fun sourceMap =>
        return { functionOffsets := cm.functionOffsets, executable, address, sourceMap }) rest := by
  have hnat : (UInt32.ofNat cm.functionOffsets.length).toNat = cm.functionOffsets.length := by
    rw [UInt32.toNat_ofNat']
    exact Nat.mod_eq_of_lt cm.functions_lt
  -- the offsets are written without their sign
  have hoffsets : (cm.functionOffsets.map Int64.toUInt64).map UInt64.toInt64 =
      cm.functionOffsets := by
    rw [List.map_map]
    exact (List.map_congr_left fun o _ => Int64.toInt64_toUInt64 o).trans (List.map_id _)
  rw [readBody, hnat, readMany_bind (fun o rest k => readUint64_bind (Int64.toUInt64 o)),
    readUint64_bind, hoffsets]

theorem serializeFront_append (version : Bytes) (cm : CompiledModule) :
    serializeFront version cm ++ rest =
      front version ++ (le32 (UInt32.ofNat cm.functionOffsets.length) ++
        (cm.functionOffsets.flatMap (fun offset => le64 offset.toUInt64) ++
          (le64 (UInt64.ofNat cm.executable.length) ++ rest))) := by
  rw [serializeFront, front]
  simp only [List.append_assoc]

/-- What is read of an entry up to the executable. -/
theorem deserialize_front {version : Version} (cm : ValidModule) :
    deserializeCompiledModule version.bytes address
        (serializeFront version.bytes cm.toCompiledModule ++ rest) =
      ((readExecutable (UInt64.ofNat cm.executable.length) >>= fun executable =>
        readSourceMap executable address >>= fun sourceMap =>
        return { functionOffsets := cm.functionOffsets, executable, address, sourceMap }) rest).map
        fun r => some r.1 := by
  rw [deserializeCompiledModule, serializeFront_append, readHeader_self version.length_le]
  change (readBody address _ _ >>= fun r => pure (some r.1)) = _
  rw [readBody_front]
  generalize (readExecutable _ >>= _) rest = x
  cases x with
  | error e => rfl
  | ok r => rfl

/-- A module whose executable is at another address. -/
def CompiledModule.relocate (cm : CompiledModule) (address : UInt64) : CompiledModule :=
  { cm with
    address
    sourceMap := cm.sourceMap.map fun e => (e.1, e.2 - cm.address + address) }

/-- What is read of an entry whose executable may have been changed, unless it is empty. -/
theorem deserialize_executable {version : Version} (cm : ValidModule) {executable : Bytes}
    (hlen : executable.length = cm.executable.length) (hpos : 0 < executable.length) :
    deserializeCompiledModule version.bytes address
        (serializeFront version.bytes cm.toCompiledModule ++ executable ++
          le32 (checksum cm.executable) ++ serializeSourceMap cm.toCompiledModule) =
      if checksum executable = checksum cm.executable then
        .ok (some { cm.toCompiledModule.relocate address with executable })
      else .error (.error .checksumMismatch) := by
  rw [List.append_assoc, List.append_assoc, deserialize_front, readExecutable_bind hlen hpos]
  split
  · have hmap := @readSourceMap_eq cm address [] executable fun _ => List.ne_nil_of_length_pos hpos
    rw [List.append_nil] at hmap
    change (readSourceMap executable address (serializeSourceMap cm.toCompiledModule) >>= _).map _ = _
    rw [hmap]
    rfl
  · rfl

theorem deserialize_empty {version : Version} (cm : ValidModule) (h : cm.executable = []) :
    deserializeCompiledModule version.bytes address
        (serializeCompiledModule version.bytes cm.toCompiledModule) =
      .ok (some (cm.toCompiledModule.relocate address)) := by
  have hmap := cm.sourceMap_eq_nil h
  have hbytes : serializeSourceMap cm.toCompiledModule = [0] := by
    rw [serializeSourceMap, hmap]
    rfl
  rw [serializeCompiledModule, List.append_assoc, List.append_assoc, deserialize_front, hbytes, h,
    CompiledModule.relocate, h, hmap]
  rfl

end Body

/-! ### Whole entries -/

/-- A byte with one bit changed. -/
def flipBit (bit : Fin 8) (b : UInt8) : UInt8 := b ^^^ (1 <<< UInt8.ofNat bit)

theorem flipBit_ne (bit : Fin 8) (b : UInt8) : flipBit bit b ≠ b := by
  intro h
  have hzero : (1 : UInt8) <<< UInt8.ofNat bit = 0 := by
    have hxor := congrArg (b ^^^ ·) h
    dsimp only [flipBit] at hxor
    rwa [← UInt8.xor_assoc, UInt8.xor_self, UInt8.zero_xor] at hxor
  have hne : ∀ bit : Fin 8, (1 : UInt8) <<< UInt8.ofNat bit ≠ 0 := by decide
  exact hne bit hzero

theorem checksum_modify {bytes : Bytes} {k : Nat} (bit : Fin 8) (hk : k < bytes.length) :
    checksum (bytes.modify k (flipBit bit)) ≠ checksum bytes := by
  intro h
  -- the two texts differ in one byte between equal parts
  have hbytes : bytes.take k ++ bytes[k] :: bytes.drop (k + 1) = bytes := by
    rw [List.getElem_cons_drop, List.take_append_drop]
  have hsum : Crc.checksum crc (bytes.modify k (flipBit bit)) = Crc.checksum crc bytes :=
    congrArg UInt32.toBitVec h
  have hmsb : crc.msb = true := by decide
  rw [List.modify_eq_take_cons_drop hk] at hsum
  refine Crc.checksum_ne hmsb (bytes.take k) (bytes.drop (k + 1)) (flipBit_ne bit bytes[k]) ?_
  rw [hbytes, hsum]

/-- **Cache entries.** The version that wrote an entry reads the module back, at another address;
any other version finds the entry stale, or fails; and no version reads an entry when a bit of the
executable has changed. -/
theorem cache_entry (cm : ValidModule) (version : Version) (address : UInt64) :
    let entry := serializeCompiledModule version.bytes cm.toCompiledModule
    deserializeCompiledModule version.bytes address entry =
        .ok (some (cm.toCompiledModule.relocate address)) ∧
      (∀ version' : Version, version'.bytes ≠ version.bytes →
        deserializeCompiledModule version'.bytes address entry = .ok none ∨
          ∃ e, deserializeCompiledModule version'.bytes address entry = .error (.error e)) ∧
      ∀ k < cm.executable.length, ∀ bit : Fin 8, ∃ e,
        deserializeCompiledModule version.bytes address
          (entry.modify ((serializeFront version.bytes cm.toCompiledModule).length + k)
            (flipBit bit)) = .error (.error e) := by
  intro entry
  refine ⟨?_, fun version' hne => ?_, fun k hk bit => ⟨.checksumMismatch, ?_⟩⟩
  · by_cases hempty : cm.executable = []
    · exact deserialize_empty cm hempty
    · have hread := @deserialize_executable address version cm cm.executable rfl
        (List.length_pos_of_ne_nil hempty)
      rwa [if_pos rfl] at hread
  · -- whatever follows, the entry begins with the version that wrote it
    obtain ⟨rest, hrest⟩ : ∃ rest, entry = front version.bytes ++ rest := by
      change ∃ rest, serializeCompiledModule _ _ = _
      rw [serializeCompiledModule, List.append_assoc, List.append_assoc, serializeFront_append]
      exact ⟨_, rfl⟩
    rw [hrest, deserializeCompiledModule]
    rcases @readHeader_other version.bytes version'.bytes rest version.length_le hne with
      ⟨rest', h⟩ | ⟨e, h⟩
    · rw [h]
      exact Or.inl rfl
    · rw [h]
      exact Or.inr ⟨e, rfl⟩
  · -- the byte that changes is one of the executable
    have hentry : entry.modify ((serializeFront version.bytes cm.toCompiledModule).length + k)
        (flipBit bit) = serializeFront version.bytes cm.toCompiledModule ++
          cm.executable.modify k (flipBit bit) ++ le32 (checksum cm.executable) ++
          serializeSourceMap cm.toCompiledModule := by
      change (serializeCompiledModule _ _).modify _ _ = _
      rw [serializeCompiledModule, List.append_assoc, List.append_assoc, modify_append_right,
        modify_append_left _ _ _ hk, List.append_assoc, List.append_assoc]
    have hlen : (cm.executable.modify k (flipBit bit)).length = cm.executable.length :=
      List.length_modify _ _ _
    rw [hentry, deserialize_executable cm hlen (hlen ▸ Nat.lt_of_le_of_lt (Nat.zero_le k) hk),
      if_neg (checksum_modify bit hk)]

/-- A module of one function of one byte, read by another version and with its first bit changed. -/
theorem cache_entry_byte :
    (deserializeCompiledModule [50] 0 (serializeCompiledModule [49] ⟨[0], [0xC3], 0, []⟩) = .ok none ∨
      ∃ e, deserializeCompiledModule [50] 0 (serializeCompiledModule [49] ⟨[0], [0xC3], 0, []⟩) =
        .error (.error e)) ∧
      ∃ e, deserializeCompiledModule [49] 0
        ((serializeCompiledModule [49] ⟨[0], [0xC3], 0, []⟩).modify 28 (flipBit 0)) =
          .error (.error e) := by
  have h := cache_entry ⟨⟨[0], [0xC3], 0, []⟩, by decide, by decide, by decide, nofun⟩
    ⟨[49], by decide⟩ 0
  exact ⟨h.2.1 ⟨[50], by decide⟩ (by decide), h.2.2 0 (by decide) 0⟩

end Wazevo
