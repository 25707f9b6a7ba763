import AflPlusPlus.Cmplog

/-!
# The operands that the hooks for functions log

Slots are used again, so the lengths in a record must not reach beyond what its hook has copied.
The hook for functions with a length notes the longer of its two lengths for both operands.
-/

namespace AflPlusPlus.Cmplog

open ByteWords

/-- The operands that a hook for functions is called with. -/
def Hook.operands : Hook → Option (Pointer × Pointer)
  | .rtnStrn ptr1 ptr2 _ | .rtnStr ptr1 ptr2 | .rtn ptr1 ptr2 => some (ptr1, ptr2)
  | _ => none

/-- `v0_len & 0x7f` and `v1_len & 0x7f` of a record. -/
def v0Len (slot : Mem) : ℕ := (slot 64 &&& 0x7f).toNat
def v1Len (slot : Mem) : ℕ := (slot 65 &&& 0x7f).toNat

/-- A record has the leading bytes of two operands, as many as it says. -/
structure Leads (slot : Mem) (ptr1 ptr2 : Pointer) : Prop where
  v0 : ∀ i < v0Len slot, slot i = ptr1.mem i
  v1 : ∀ i < v1Len slot, slot (32 + i) = ptr2.mem i

/-- Whatever the slots hold before, the record of a call has the bytes of its operands. -/
def Hook.LogsOperands (maxLen : ℕ) (hook : Hook) : Prop :=
  ∀ ptr1 ptr2 e, hook.operands = some (ptr1, ptr2) → hook.logged maxLen = some e →
    ∀ (map : CmpMap) (k : BitVec 16),
      Leads ((map.record k e).log k ((map.headers k).slot e)) ptr1 ptr2

/-- The length that `__cmplog_rtn_hook_strn` takes for an operand. -/
def readableLen (maxLen : ℕ) (ptr : Pointer) (len : BitVec 64) : ℕ :=
  accepted maxLen (ptr.areaIsValid (strnlen ptr.mem (min len.toNat 32) + 1))

/-- The two operands of `__cmplog_rtn_hook_strn` have one length, unless it returns early. -/
def Hook.SameLengths (maxLen : ℕ) : Hook → Prop
  | .rtnStrn ptr1 ptr2 len => maxLen < len.toNat ∨ len = 0 ∨
      longer (readableLen maxLen ptr1 len) (readableLen maxLen ptr2 len) < 2 ∨
      readableLen maxLen ptr1 len = readableLen maxLen ptr2 len
  | _ => True

section Records
variable {map : CmpMap} {k : BitVec 16} {len len1 len2 noted1 noted2 : ℕ} {ptr1 ptr2 : Pointer}

/-- The slot that a call has written: what it has copied, and behind that what was there. -/
theorem record_slot (map : CmpMap) (k : BitVec 16) (e : Logged) (i : ℕ) :
    (map.record k e).log k ((map.headers k).slot e) i =
      (e.data i).getD (map.log k ((map.headers k).slot e) i) := by
  simp [CmpMap.record]

theorem rtnOperands_v0 {i : ℕ} (hi : i < 32) :
    (rtnOperands len len1 len2 noted1 noted2 ptr1 ptr2).data i =
      if i < len1 then some (ptr1.mem i) else none := by
  by_cases hlt : i < len1
  · simp [rtnOperands, fields, field, hlt]
  · have h32 : ¬32 ≤ i := by omega
    have h64 : ¬64 ≤ i := by omega
    have h65 : ¬65 ≤ i := by omega
    simp [rtnOperands, fields, field, hlt, h32, h64, h65]

theorem rtnOperands_v1 {i : ℕ} (hi : i < 32) (hlen1 : len1 ≤ 32) :
    (rtnOperands len len1 len2 noted1 noted2 ptr1 ptr2).data (32 + i) =
      if i < len2 then some (ptr2.mem i) else none := by
  have hne : ¬32 + i < len1 := by omega
  by_cases hlt : i < len2
  · simp [rtnOperands, fields, field, hlt, hne]
  · have h64 : ¬64 ≤ 32 + i := by omega
    have h65 : ¬65 ≤ 32 + i := by omega
    simp [rtnOperands, fields, field, hlt, hne, h64, h65]

theorem rtnOperands_lens (hlen1 : len1 ≤ 32) (hlen2 : len2 ≤ 32) :
    (rtnOperands len len1 len2 noted1 noted2 ptr1 ptr2).data 64 = some (BitVec.ofNat 8 noted1) ∧
    (rtnOperands len len1 len2 noted1 noted2 ptr1 ptr2).data 65 = some (BitVec.ofNat 8 noted2) := by
  have h1 : ¬64 < len1 := by omega
  have h1' : ¬65 < len1 := by omega
  have h2 : ¬64 < 32 + len2 := by omega
  have h2' : ¬65 < 32 + len2 := by omega
  constructor
  · simp [rtnOperands, fields, field, h1, h2]
  · simp [rtnOperands, fields, field, h1', h2']

/-- The top bit of a length marks strings. -/
theorem and_0x7f_toNat {n : ℕ} (hn : n ≤ 32) :
    (BitVec.ofNat 8 (0x80 + n) &&& 0x7f).toNat = n ∧ (BitVec.ofNat 8 n &&& 0x7f).toNat = n := by
  interval_cases n <;> decide

/-- Whether the lengths that a record notes are the lengths that were copied decides whether it
has the operands. -/
theorem leads_iff {n1 n2 : ℕ} (hn1 : n1 ≤ 32) (hn2 : n2 ≤ 32) (hlen1 : len1 ≤ n1)
    (hlen2 : len2 ≤ n2)
    (hnoted1 : (BitVec.ofNat 8 noted1 &&& 0x7f).toNat = n1)
    (hnoted2 : (BitVec.ofNat 8 noted2 &&& 0x7f).toNat = n2) :
    (∀ (map : CmpMap) (k : BitVec 16),
      Leads ((map.record k (rtnOperands len len1 len2 noted1 noted2 ptr1 ptr2)).log k
        ((map.headers k).slot (rtnOperands len len1 len2 noted1 noted2 ptr1 ptr2))) ptr1 ptr2) ↔
      len1 = n1 ∧ len2 = n2 := by
  set e := rtnOperands len len1 len2 noted1 noted2 ptr1 ptr2 with he
  obtain ⟨h64, h65⟩ := @rtnOperands_lens len len1 len2 noted1 noted2 ptr1 ptr2 (by omega) (by omega)
  have hv0 : ∀ (map : CmpMap) (k : BitVec 16),
      v0Len ((map.record k e).log k ((map.headers k).slot e)) = n1 := by
    intro map k
    rw [v0Len, record_slot, he, h64, Option.getD_some, hnoted1]
  have hv1 : ∀ (map : CmpMap) (k : BitVec 16),
      v1Len ((map.record k e).log k ((map.headers k).slot e)) = n2 := by
    intro map k
    rw [v1Len, record_slot, he, h65, Option.getD_some, hnoted2]
  constructor
  · intro h
    -- a slot that differs from both operands everywhere
    let map := CmpMap.cleared fun _ _ i => if i < 32 then ~~~ptr1.mem i else ~~~ptr2.mem (i - 32)
    have hnot : ∀ b : Byte, ~~~b ≠ b := by decide
    obtain ⟨h1, h2⟩ := h map 0
    constructor
    · by_contra hne
      have hbyte := h1 len1 (by rw [hv0]; omega)
      rw [record_slot, he, rtnOperands_v0 (by omega), if_neg (Nat.lt_irrefl _),
        Option.getD_none] at hbyte
      have h32 : len1 < 32 := by omega
      simp only [map, CmpMap.cleared, h32, if_true] at hbyte
      exact hnot _ hbyte
    · by_contra hne
      have hbyte := h2 len2 (by rw [hv1]; omega)
      rw [record_slot, he, rtnOperands_v1 (by omega) (by omega), if_neg (Nat.lt_irrefl _),
        Option.getD_none] at hbyte
      have h32 : ¬32 + len2 < 32 := by omega
      simp only [map, CmpMap.cleared, h32, if_false, Nat.add_sub_cancel_left] at hbyte
      exact hnot _ hbyte
  · rintro ⟨rfl, rfl⟩ map k
    constructor
    · intro i hi
      rw [hv0] at hi
      rw [record_slot, he, rtnOperands_v0 (by omega), if_pos hi, Option.getD_some]
    · intro i hi
      rw [hv1] at hi
      rw [record_slot, he, rtnOperands_v1 (by omega) (by omega), if_pos hi, Option.getD_some]

end Records

theorem le_longer {len1 len2 : ℕ} : len1 ≤ longer len1 len2 ∧ len2 ≤ longer len1 len2 := by
  unfold longer
  split_ifs <;> omega

theorem longer_eq_iff {len1 len2 : ℕ} :
    len1 = longer len1 len2 ∧ len2 = longer len1 len2 ↔ len1 = len2 := by
  unfold longer
  split_ifs <;> omega

section Hooks
variable {maxLen : ℕ} {ptr1 ptr2 : Pointer}

theorem strn_logsOperands_iff (hmax : maxLen ≤ 32) (len : BitVec 64) :
    (Hook.rtnStrn ptr1 ptr2 len).LogsOperands maxLen ↔
      (Hook.rtnStrn ptr1 ptr2 len).SameLengths maxLen := by
  have hlogged : (Hook.rtnStrn ptr1 ptr2 len).logged maxLen =
      if len.toNat = 0 ∨ maxLen < len.toNat then none
      else if longer (readableLen maxLen ptr1 len) (readableLen maxLen ptr2 len) < 2 then none
      else some (rtnOperands (longer (readableLen maxLen ptr1 len) (readableLen maxLen ptr2 len))
        (readableLen maxLen ptr1 len) (readableLen maxLen ptr2 len)
        (0x80 + longer (readableLen maxLen ptr1 len) (readableLen maxLen ptr2 len))
        (0x80 + longer (readableLen maxLen ptr1 len) (readableLen maxLen ptr2 len))
        ptr1 ptr2) := rfl
  have hle1 : readableLen maxLen ptr1 len ≤ maxLen := accepted_le _ _
  have hle2 : readableLen maxLen ptr2 len ≤ maxLen := accepted_le _ _
  unfold Hook.LogsOperands
  rw [hlogged]
  change _ ↔ maxLen < len.toNat ∨ len = 0 ∨
    longer (readableLen maxLen ptr1 len) (readableLen maxLen ptr2 len) < 2 ∨
      readableLen maxLen ptr1 len = readableLen maxLen ptr2 len
  generalize readableLen maxLen ptr1 len = len1 at *
  generalize readableLen maxLen ptr2 len = len2 at *
  by_cases hearly : len.toNat = 0 ∨ maxLen < len.toNat
  · rw [if_pos hearly]
    apply iff_of_true
    · intro _ _ _ _ h
      exact absurd h (by simp)
    · rcases hearly with hzero | hlt
      · exact .inr (.inl (BitVec.eq_of_toNat_eq hzero))
      · exact .inl hlt
  · rw [if_neg hearly]
    rw [not_or] at hearly
    have hlen : len ≠ 0 := by
      rintro rfl
      exact hearly.1 rfl
    by_cases hshort : longer len1 len2 < 2
    · rw [if_pos hshort]
      apply iff_of_true
      · intro _ _ _ _ h
        exact absurd h (by simp)
      · exact .inr (.inr (.inl hshort))
    · have hlong : longer len1 len2 ≤ 32 := by
        unfold longer
        split_ifs <;> omega
      have hiff := @leads_iff (longer len1 len2) len1 len2 _ _ ptr1 ptr2 _ _ hlong hlong
        le_longer.1 le_longer.2 (and_0x7f_toNat hlong).1 (and_0x7f_toNat hlong).1
      rw [longer_eq_iff] at hiff
      simp only [hearly.2, hlen, hshort, false_or, ← hiff]
      constructor
      · intro h
        exact h ptr1 ptr2 _ rfl rfl
      · intro h p1 p2 e hptr he
        obtain ⟨rfl, rfl⟩ := Prod.mk.inj (Option.some.inj hptr)
        obtain rfl := Option.some.inj he
        exact h

theorem str_logsOperands (hmax : maxLen ≤ 32) (ptr1 ptr2 : Pointer) :
    (Hook.rtnStr ptr1 ptr2).LogsOperands maxLen := by
  intro p1 p2 e hptr he
  obtain ⟨rfl, rfl⟩ := Prod.mk.inj (Option.some.inj hptr)
  have hle1 := accepted_le maxLen (strnlen ptr1.mem 31 + 1)
  have hle2 := accepted_le maxLen (strnlen ptr2.mem 31 + 1)
  rw [Hook.logged, cmplogRtnHookStr] at he
  dsimp only at he
  split_ifs at he
  obtain rfl := Option.some.inj he
  exact (leads_iff (by omega) (by omega) le_rfl le_rfl (and_0x7f_toNat (by omega)).1
    (and_0x7f_toNat (by omega)).1).mpr ⟨rfl, rfl⟩

theorem rtn_logsOperands (hmax : maxLen ≤ 32) (ptr1 ptr2 : Pointer) :
    (Hook.rtn ptr1 ptr2).LogsOperands maxLen := by
  intro p1 p2 e hptr he
  obtain ⟨rfl, rfl⟩ := Prod.mk.inj (Option.some.inj hptr)
  rw [Hook.logged, cmplogRtnHook] at he
  dsimp only at he
  split_ifs at he
  obtain rfl := Option.some.inj he
  exact (leads_iff (by omega) (by omega) le_rfl le_rfl (and_0x7f_toNat (by omega)).2
    (and_0x7f_toNat (by omega)).2).mpr ⟨rfl, rfl⟩

end Hooks

/-- A hook for functions logs the bytes of its operands and nothing of an older call, whatever the
slot holds, if and only if it is not the one with a length or its operands have one length. -/
theorem hook_logsOperands_iff (env : Option ℤ) (hook : Hook) :
    hook.LogsOperands (cmplogMaxLen env) ↔ hook.SameLengths (cmplogMaxLen env) := by
  have hmax := cmplogMaxLen_le env
  cases hook with
  | rtnStrn ptr1 ptr2 len => exact strn_logsOperands_iff hmax len
  | rtnStr ptr1 ptr2 => exact iff_of_true (str_logsOperands hmax ptr1 ptr2) trivial
  | rtn ptr1 ptr2 => exact iff_of_true (rtn_logsOperands hmax ptr1 ptr2) trivial
  | ins1 | ins2 | ins4 | ins8 | insN | ins16 | switch =>
    apply iff_of_true _ trivial
    intro _ _ _ h
    exact absurd h (by simp [Hook.operands])

/-- A string in readable memory. -/
def stringAt (s : String) : Pointer where
  mem i := BitVec.ofNat 8 ((s.toList.map Char.toNat).getD i 0)
  areaIsValid := id

/-- `strncmp("ab", "abcd", 8)` copies three bytes of the first operand and notes five. -/
theorem strn_keeps_stale_bytes :
    ¬(Hook.rtnStrn (stringAt "ab") (stringAt "abcd") 8).LogsOperands (cmplogMaxLen none) := by
  intro h
  have hleads := h _ _ _ rfl rfl (.cleared fun _ _ _ => 0x58) 0
  exact absurd (hleads.v0 3 (by decide)) (by decide)

end AflPlusPlus.Cmplog
