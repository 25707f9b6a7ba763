import AflPlusPlus.ForkserverHandshake

/-!
# What the two sides of the handshake have still to say

At each point of the handshake it is known what the target has still to write and what the
fuzzer has still to read. A word that the one writes is the word that the other waits for,
and takes both to the next point; at the end of a dictionary the fuzzer finds its tokens.
-/

namespace AflPlusPlus.ForkserverHandshake
open ByteWords ByteBuffers Pipes

/-! ## Dictionaries -/

/-- A token of a dictionary, whose length fits in one byte. -/
structure Token where
  bytes : Buffer
  length_lt : bytes.length < 256

namespace Token

def encode (x : Token) : Buffer := BitVec.ofNat 8 x.bytes.length :: x.bytes

@[simp] theorem length_encode (x : Token) : x.encode.length = x.bytes.length + 1 := rfl

end Token

def blob (tokens : List Token) : Buffer := tokens.flatMap Token.encode

/-- The fuzzer finds the tokens of a dictionary again. -/
theorem dictEntries_blob (front : Buffer) (tokens : List Token) :
    dictEntries (front ++ blob tokens) front.length = tokens.map Token.bytes := by
  induction tokens generalizing front with
  | nil =>
    rw [dictEntries, dif_neg (by simp [blob])]
    rfl
  | cons x tokens ih =>
    have hblob : front ++ blob (x :: tokens) = front ++ x.encode ++ blob tokens := by
      simp [blob]
    have hlen : (front ++ x.encode ++ blob tokens).length =
        front.length + (x.bytes.length + 1) + (blob tokens).length := by
      rw [List.length_append, List.length_append, Token.length_encode]
    have hin : front.length < (front ++ x.encode ++ blob tokens).length := by omega
    have hbyte : (front ++ x.encode ++ blob tokens)[front.length].toNat = x.bytes.length := by
      simp [Token.encode, Nat.mod_eq_of_lt x.length_lt]
    have hnext : front.length + (1 + x.bytes.length) = (front ++ x.encode).length := by
      rw [List.length_append, Token.length_encode, Nat.add_comm 1]
    have hsplit : front ++ x.encode ++ blob tokens =
        (front ++ [BitVec.ofNat 8 x.bytes.length]) ++ (x.bytes ++ blob tokens) := by
      simp [Token.encode]
    have htoken : ((front ++ x.encode ++ blob tokens).drop (front.length + 1)).take
        x.bytes.length = x.bytes := by
      rw [hsplit, List.drop_left' (by simp), List.take_left]
    rw [hblob, dictEntries, dif_pos hin]
    simp only [hbyte]
    rw [if_pos (by omega), htoken, hnext, ih, List.map_cons]

theorem blob_eq_nil {tokens : List Token} (h : blob tokens = []) : tokens = [] := by
  cases tokens with
  | nil => rfl
  | cons x tokens => simp [blob, Token.encode] at h

/-! ## What the two sides have still to say -/

def reply : Buffer := wordBytes (version ^^^ 0xffffffff#32)

namespace Target

variable (t : Target)

def dictLen : BitVec 32 := BitVec.ofNat 32 t.dict.length

/-- What follows the size of the map. -/
def fromDict : Buffer :=
  (if t.hasDictionary then wordBytes t.dictLen ++ t.dict else []) ++ wordBytes version

def fromMapSize : Buffer := wordBytes t.mapSize ++ t.fromDict

def fromOptions : Buffer := wordBytes t.options ++ t.fromMapSize

def toWrite : TargetPoint → Buffer
  | .writeVersion => wordBytes version ++ t.fromOptions
  | .readReply | .writeOptions => t.fromOptions
  | .writeMapSize => t.fromMapSize
  | .writeDictLen => wordBytes t.dictLen ++ (t.dict ++ wordBytes version)
  | .writeDict offset _ => t.dict.drop offset ++ wordBytes version
  | .writeWelcome => wordBytes version
  | .ready | .exited => []

/-- What the fuzzer has still to read from this target. -/
def toFsrv : FsrvPoint → Buffer
  | .readStatus => wordBytes version ++ t.fromOptions
  | .writeReply _ | .readOptions _ => t.fromOptions
  | .readMapSize _ _ => t.fromMapSize
  | .readDictSize _ => wordBytes t.dictLen ++ (t.dict ++ wordBytes version)
  | .readDict _ _ dict => t.dict.drop dict.length ++ wordBytes version
  | .readStatus2 _ => wordBytes version
  | _ => []

end Target

def TargetPoint.toRead : TargetPoint → Buffer
  | .writeVersion | .readReply => reply
  | _ => []

def FsrvPoint.toWrite : FsrvPoint → Buffer
  | .readStatus | .writeReply _ => reply
  | _ => []

/-- The points that the target passes. -/
inductive TargetAt (t : Target) : TargetPoint → Prop
  | writeVersion : TargetAt t .writeVersion
  | readReply : TargetAt t .readReply
  | writeOptions : TargetAt t .writeOptions
  | writeMapSize : TargetAt t .writeMapSize
  | writeDictLen (h : t.hasDictionary = true) : TargetAt t .writeDictLen
  | writeDict {offset len : ℕ} (hlen : len ≠ 0) (h : offset + len = t.dict.length) :
      TargetAt t (.writeDict offset len)
  | writeWelcome : TargetAt t .writeWelcome
  | ready : TargetAt t .ready

namespace Fsrv

/-- The fuzzer after the options of the target. -/
def sized (f : Fsrv) (t : Target) : Fsrv :=
  { f with
    mapSize := roundedSize t.mapSize
    realMapSize := t.mapSize
    useShmemFuzz := f.useShmemFuzz || t.sharedmemFuzzing }

/-- The calls of `add_extra_func` for the tokens, if it is called at all. -/
def calls (f : Fsrv) (tokens : List Token) : List Buffer :=
  if !f.ignoreAutodict && f.addExtraFunc then tokens.map Token.bytes else []

def fed (f : Fsrv) (t : Target) (tokens : List Token) : Fsrv :=
  { f.sized t with extras := f.extras ++ f.calls tokens }

end Fsrv

/-- The points that the fuzzer passes, and what it knows there. -/
inductive FsrvAt (t : Target) (f : Fsrv) (tokens : List Token) : Fsrv → FsrvPoint → Prop
  | readStatus : FsrvAt t f tokens f .readStatus
  | writeReply : FsrvAt t f tokens f (.writeReply version)
  | readOptions : FsrvAt t f tokens f (.readOptions version)
  | readMapSize : FsrvAt t f tokens f (.readMapSize version t.options)
  | readDictSize (h : t.hasDictionary = true) :
      FsrvAt t f tokens (f.sized t) (.readDictSize version)
  | readDict {n : ℕ} (hn : n < t.dict.length) :
      FsrvAt t f tokens (f.sized t) (.readDict version t.dictLen (t.dict.take n))
  | readStatus2 : FsrvAt t f tokens (f.fed t tokens) (.readStatus2 version)
  | ready : FsrvAt t f tokens (f.fed t tokens) .ready

/-- What the claimed success of the handshake rests on: the map of the target is not larger
than the shared map, whose size every caller rounds up to a multiple of 64, a target asks for
test cases in shared memory only when it finds the variable that is set with their support,
and the dictionary consists of tokens. -/
structure Compatible (t : Target) (f : Fsrv) (tokens : List Token) : Prop where
  mapSize_le : t.mapSize ≤ f.sharedMap
  aligned : 64 ∣ f.mapSize.toNat
  shmem : t.sharedmemFuzzing = true → f.supportShmemFuzz = true
  dict_eq : t.dict = blob tokens
  dict_size : t.dict ≠ [] → 2 ≤ t.dict.length ∧ t.dict.length ≤ 0xffffff

variable {t : Target} {f : Fsrv} {tokens : List Token}

/-! ## The words -/

theorem options_and_mapsize : t.options &&& fsNewOptMapsize ≠ 0 := by
  unfold Target.options
  cases t.sharedmemFuzzing <;> cases t.hasDictionary <;> decide

theorem options_and_shdmemFuzz :
    t.options &&& fsNewOptShdmemFuzz ≠ 0 ↔ t.sharedmemFuzzing = true := by
  unfold Target.options
  cases t.sharedmemFuzzing <;> cases t.hasDictionary <;> decide

theorem options_and_autodict :
    t.options &&& fsNewOptAutodict ≠ 0 ↔ t.hasDictionary = true := by
  unfold Target.options
  cases t.sharedmemFuzzing <;> cases t.hasDictionary <;> decide

theorem onStatus_version : Fsrv.onStatus version = .writeReply version := by decide

theorem onReply_reply : Target.onReply (loadAt 4 reply 0) = .writeOptions := by
  rw [reply, loadAt_wordBytes]
  decide

theorem hasDictionary_iff : t.hasDictionary = true ↔ t.dict ≠ [] := by
  rw [Target.hasDictionary, decide_eq_true_iff, ne_eq, List.length_eq_zero_iff]

/-- A size that fits is rounded up to one that fits, without overflow. -/
theorem toNat_roundedSize (x : BitVec 32) {m : ℕ} (hx : x.toNat ≤ m) (hm : m < 2 ^ 32)
    (hdvd : 64 ∣ m) : (Fsrv.roundedSize x).toNat = (x.toNat + 63) / 64 * 64 := by
  obtain ⟨k, rfl⟩ := hdvd
  have hmod : x % 64#32 ≠ 0 ↔ x.toNat % 64 ≠ 0 := by
    rw [ne_eq, ne_eq, ← BitVec.toNat_inj, BitVec.toNat_umod]
    rfl
  unfold Fsrv.roundedSize
  split
  · next h =>
    rw [BitVec.toNat_shiftLeft, BitVec.toNat_ushiftRight, BitVec.toNat_add, Nat.shiftLeft_eq,
      Nat.shiftRight_eq_div_pow, show (63#32).toNat = 63 from rfl]
    have hmod := hmod.1 h
    omega
  · next h =>
    have hmod := not_not.1 (mt hmod.2 h)
    omega

namespace Compatible

variable (h : Compatible t f tokens)
include h

theorem sharedMap_aligned : 64 ∣ f.sharedMap.toNat := by
  unfold Fsrv.sharedMap
  split
  · decide
  · exact h.aligned

theorem roundedSize_eq :
    (Fsrv.roundedSize t.mapSize).toNat = (t.mapSize.toNat + 63) / 64 * 64 :=
  toNat_roundedSize _ h.mapSize_le f.sharedMap.isLt h.sharedMap_aligned

theorem roundedSize_le : ¬f.sharedMap < Fsrv.roundedSize t.mapSize := by
  have hle : t.mapSize.toNat ≤ f.sharedMap.toNat := h.mapSize_le
  obtain ⟨k, hk⟩ := h.sharedMap_aligned
  rw [BitVec.lt_def, h.roundedSize_eq]
  omega

theorem toNat_dictLen : t.dictLen.toNat = t.dict.length := by
  rw [Target.dictLen, BitVec.toNat_ofNat]
  by_cases hd : t.dict = []
  · rw [hd]
    rfl
  · have := (h.dict_size hd).2
    omega

theorem tokens_eq_nil (hd : t.hasDictionary = false) : tokens = [] := by
  apply blob_eq_nil
  rw [← h.dict_eq]
  by_contra hne
  rw [hasDictionary_iff.2 hne] at hd
  exact absurd hd (by decide)

theorem fed_of_no_dictionary (hd : t.hasDictionary = false) : f.fed t tokens = f.sized t := by
  have hcalls : f.calls tokens = [] := by
    rw [h.tokens_eq_nil hd, Fsrv.calls, List.map_nil, ite_self]
  rw [Fsrv.fed, hcalls, List.append_nil]
  rfl

end Compatible

/-! ## One word -/

section Words
variable (h : Compatible t f tokens)
include h

/-- The next point and the rest of the stream behind the size of the map. -/
theorem onFlags_options {g : Fsrv} (hg : g.supportShmemFuzz = f.supportShmemFuzz) :
    g.onFlags version t.options =
      ({ g with useShmemFuzz := g.useShmemFuzz || t.sharedmemFuzzing },
        if t.hasDictionary then .readDictSize version else .readStatus2 version) := by
  unfold Fsrv.onFlags
  simp only [options_and_autodict, options_and_shdmemFuzz]
  cases hs : t.sharedmemFuzzing with
  | false => simp
  | true => simp [hg, h.shmem hs]

theorem onMapSize_mapSize : f.onMapSize version t.options t.mapSize =
    (f.sized t, if t.hasDictionary then .readDictSize version else .readStatus2 version) := by
  unfold Fsrv.onMapSize
  rw [if_neg h.roundedSize_le]
  exact onFlags_options h rfl

theorem dictLoop_take {n : ℕ} (hn : n ≤ t.dict.length) :
    FsrvAt t f tokens ((f.sized t).dictLoop version t.dictLen (t.dict.take n)).1
        ((f.sized t).dictLoop version t.dictLen (t.dict.take n)).2 ∧
      t.toFsrv ((f.sized t).dictLoop version t.dictLen (t.dict.take n)).2 =
        t.dict.drop n ++ wordBytes version ∧
      ((f.sized t).dictLoop version t.dictLen (t.dict.take n)).2.toWrite = [] := by
  have hlen : (t.dict.take n).length = n := List.length_take_of_le hn
  unfold Fsrv.dictLoop
  rw [hlen, h.toNat_dictLen]
  split
  · next hlt => exact ⟨.readDict hlt, by rw [Target.toFsrv, hlen], rfl⟩
  · next hge =>
    obtain rfl : n = t.dict.length := Nat.le_antisymm hn (Nat.not_lt.1 hge)
    have hentries : dictEntries (t.dict.take t.dict.length) 0 = tokens.map Token.bytes := by
      rw [List.take_length, h.dict_eq]
      exact dictEntries_blob [] tokens
    have hfed : (if (!(f.sized t).ignoreAutodict && (f.sized t).addExtraFunc) = true then
        ({ f.sized t with
            extras := (f.sized t).extras ++ dictEntries (t.dict.take t.dict.length) 0 },
          FsrvPoint.readStatus2 version)
        else (f.sized t, .readStatus2 version)) = (f.fed t tokens, .readStatus2 version) := by
      have hsame : (!(f.sized t).ignoreAutodict && (f.sized t).addExtraFunc) =
          (!f.ignoreAutodict && f.addExtraFunc) := rfl
      rw [hentries, hsame, Fsrv.fed, Fsrv.calls]
      by_cases hcalls : (!f.ignoreAutodict && f.addExtraFunc) = true
      · rw [if_pos hcalls, if_pos hcalls]
        rfl
      · rw [if_neg hcalls, if_neg hcalls, List.append_nil]
        rfl
    rw [hfed]
    exact ⟨.readStatus2, by rw [List.drop_length]; rfl, rfl⟩

theorem onDictSize_dictLen (hd : t.hasDictionary = true) :
    (f.sized t).onDictSize version t.dictLen =
      (f.sized t).dictLoop version t.dictLen (t.dict.take 0) := by
  obtain ⟨hlow, hhigh⟩ := h.dict_size (hasDictionary_iff.1 hd)
  have hlen := h.toNat_dictLen
  unfold Fsrv.onDictSize
  rw [if_neg, List.take_zero]
  rw [BitVec.lt_def, BitVec.lt_def, hlen]
  exact not_or.2 ⟨Nat.not_lt.2 hlow, Nat.not_lt.2 hhigh⟩

/-- Where the fuzzer reads a word, the stream goes on with the word that it waits for. -/
theorem FsrvAt.onWord {g g' : Fsrv} {p p' : FsrvPoint} {w : BitVec 32}
    (hat : FsrvAt t f tokens g p) (hw : g.onWord w p = some (g', p')) :
    ∃ expected rest, t.toFsrv p = wordBytes expected ++ rest ∧
      (w = expected → FsrvAt t f tokens g' p' ∧ t.toFsrv p' = rest ∧ p'.toWrite = p.toWrite) := by
  cases hat with
  | readStatus =>
    refine ⟨version, t.fromOptions, rfl, ?_⟩
    rintro rfl
    obtain ⟨rfl, rfl⟩ := Prod.mk.inj (Option.some.inj hw)
    rw [onStatus_version]
    exact ⟨.writeReply, rfl, rfl⟩
  | readOptions =>
    refine ⟨t.options, t.fromMapSize, rfl, ?_⟩
    rintro rfl
    have hnext : f.onOptions version t.options = (f, .readMapSize version t.options) :=
      if_pos options_and_mapsize
    obtain ⟨rfl, rfl⟩ := Prod.mk.inj (hnext.symm.trans (Option.some.inj hw))
    exact ⟨.readMapSize, rfl, rfl⟩
  | readMapSize =>
    refine ⟨t.mapSize, t.fromDict, rfl, ?_⟩
    rintro rfl
    obtain ⟨rfl, rfl⟩ := Prod.mk.inj ((onMapSize_mapSize h).symm.trans (Option.some.inj hw))
    cases hd : t.hasDictionary with
    | false =>
      rw [← h.fed_of_no_dictionary hd, if_neg (by decide)]
      exact ⟨.readStatus2, by rw [Target.fromDict, hd]; rfl, rfl⟩
    | true =>
      rw [if_pos rfl]
      refine ⟨.readDictSize hd, ?_, rfl⟩
      rw [Target.fromDict, hd, if_pos rfl, List.append_assoc]
      rfl
  | readDictSize hd =>
    refine ⟨t.dictLen, t.dict ++ wordBytes version, rfl, ?_⟩
    rintro rfl
    have hnext := (onDictSize_dictLen h hd).symm.trans (Option.some.inj hw)
    have hat := dictLoop_take h (Nat.zero_le _)
    rw [hnext] at hat
    exact hat
  | readStatus2 =>
    refine ⟨version, [], (List.append_nil _).symm, ?_⟩
    rintro rfl
    obtain ⟨rfl, rfl⟩ := Prod.mk.inj (Option.some.inj hw)
    rw [if_neg (not_not.2 rfl)]
    exact ⟨.ready, rfl, rfl⟩
  | writeReply => exact absurd hw (by simp [Fsrv.onWord])
  | readDict hn => exact absurd hw (by simp [Fsrv.onWord])
  | ready => exact absurd hw (by simp [Fsrv.onWord])

omit h in
theorem TargetAt.dictLoop {offset len : ℕ} (hsum : offset + len = t.dict.length) :
    TargetAt t (Target.dictLoop offset len) ∧
      t.toWrite (Target.dictLoop offset len) = t.dict.drop offset ++ wordBytes version ∧
      (Target.dictLoop offset len).toRead = [] := by
  unfold Target.dictLoop
  split
  · next hlen => exact ⟨.writeDict hlen hsum, rfl, rfl⟩
  · next hlen =>
    obtain rfl : offset = t.dict.length := by omega
    exact ⟨.writeWelcome, by rw [List.drop_length]; rfl, rfl⟩

omit h in
/-- Where the target writes a word, the stream goes on with it. -/
theorem TargetAt.word {p p' : TargetPoint} {w : BitVec 32} (hat : TargetAt t p)
    (hw : t.word p = some (w, p')) :
    TargetAt t p' ∧ t.toWrite p = wordBytes w ++ t.toWrite p' ∧ p'.toRead = p.toRead := by
  cases hat with
  | writeVersion =>
    obtain ⟨rfl, rfl⟩ := Prod.mk.inj (Option.some.inj hw)
    exact ⟨.readReply, rfl, rfl⟩
  | writeOptions =>
    obtain ⟨rfl, rfl⟩ := Prod.mk.inj (Option.some.inj hw)
    exact ⟨.writeMapSize, rfl, rfl⟩
  | writeMapSize =>
    obtain ⟨rfl, rfl⟩ := Prod.mk.inj (Option.some.inj hw)
    cases hd : t.hasDictionary with
    | false =>
      rw [if_neg (by decide), Target.toWrite, Target.fromMapSize, Target.fromDict, hd]
      exact ⟨.writeWelcome, rfl, rfl⟩
    | true =>
      rw [if_pos rfl, Target.toWrite, Target.fromMapSize, Target.fromDict, hd, if_pos rfl,
        List.append_assoc]
      exact ⟨.writeDictLen hd, rfl, rfl⟩
  | writeDictLen hd =>
    obtain ⟨rfl, rfl⟩ := Prod.mk.inj (Option.some.inj hw)
    obtain ⟨hat, hwrite, hread⟩ := TargetAt.dictLoop (Nat.zero_add t.dict.length)
    exact ⟨hat, by rw [hwrite]; rfl, hread⟩
  | writeWelcome =>
    obtain ⟨rfl, rfl⟩ := Prod.mk.inj (Option.some.inj hw)
    exact ⟨.ready, (List.append_nil _).symm, rfl⟩
  | readReply => exact absurd hw (by simp [Target.word])
  | writeDict hlen hsum => exact absurd hw (by simp [Target.word])
  | ready => exact absurd hw (by simp [Target.word])

end Words

end AflPlusPlus.ForkserverHandshake
