import Mathlib

/-!
# Names of queue files and the order of a directory scan

The queue directories are listed by `scandir` with `alphasort`, which in the C locale is the
order of `strcmp`. Numbers are printed with `%06u`: up to six digits the order of the names
is that of the numbers, a seventh digit breaks it.
-/

namespace AflPlusPlus.QueueNames

abbrev FileName := List Char

/-! ## Listings -/

section Listing
variable {α : Type*}

/-- The entries of a directory as `scandir` with `alphasort` returns them. -/
def alphasort (entries : List (FileName × α)) : List (FileName × α) :=
  entries.mergeSort fun a b => decide (a.1 ≤ b.1)

theorem alphasort_perm (entries : List (FileName × α)) : (alphasort entries).Perm entries :=
  List.mergeSort_perm _ _

theorem alphasort_sorted (entries : List (FileName × α)) :
    (alphasort entries).Pairwise fun a b => a.1 ≤ b.1 := by
  have h := @List.pairwise_mergeSort _ (fun a b : FileName × α => decide (a.1 ≤ b.1))
    (fun a b c hab hbc => decide_eq_true ((of_decide_eq_true hab).trans (of_decide_eq_true hbc)))
    (fun a b => by simpa using le_total a.1 b.1) entries
  exact h.imp of_decide_eq_true

/-- A listing with increasing names is found again whatever the order on the disk. -/
theorem alphasort_eq_of_perm {entries sorted : List (FileName × α)} (hperm : entries.Perm sorted)
    (hsorted : sorted.Pairwise fun a b => a.1 < b.1) : alphasort entries = sorted := by
  refine List.Perm.eq_of_pairwise ?_
    (alphasort_sorted entries) (hsorted.imp le_of_lt) ((alphasort_perm entries).trans hperm)
  intro a b ha hb hab hba
  have hmem : a ∈ sorted := hperm.mem_iff.1 ((alphasort_perm entries).mem_iff.1 ha)
  by_contra hne
  rcases List.Pairwise.forall_of_forall_of_flip (R := fun a b => a ≠ b → a.1 < b.1 ∨ b.1 < a.1)
    (fun a _ h => absurd rfl h) (hsorted.imp fun h _ => .inl h)
    (hsorted.imp fun h _ => .inr h) hmem hb hne with h | h
  · exact absurd hba h.not_ge
  · exact absurd hab h.not_ge

end Listing

/-! ## Numbers -/

/-- The last `width` digits in the given base. -/
def fixedDigits (base : ℕ) : ℕ → ℕ → List Char
  | 0, _ => []
  | width + 1, n => fixedDigits base width (n / base) ++ [Nat.digitChar (n % base)]

/-- A number as `%06u` prints it: at least six digits. -/
def decimal6 (n : ℕ) : List Char :=
  if n < 10 ^ 6 then fixedDigits 10 6 n else Nat.toDigits 10 n

/-- A hash as `sha1_hex` prints it. -/
def sha1Hex (digest : BitVec 160) : List Char := fixedDigits 16 40 digest.toNat

theorem length_fixedDigits (base width n : ℕ) : (fixedDigits base width n).length = width := by
  induction width generalizing n with
  | zero => rfl
  | succ width ih => rw [fixedDigits, List.length_append, ih, List.length_singleton]

theorem digitChar_lt {m n : ℕ} (hn : n < 16) (h : m < n) : Nat.digitChar m < Nat.digitChar n := by
  interval_cases n <;> interval_cases m <;> decide

/-- Texts of one length are compared before what follows them. -/
theorem append_lt_append_of_lt {a b c d : List Char} (hlen : a.length = b.length) (h : a < b) :
    a ++ c < b ++ d := by
  induction a generalizing b with
  | nil =>
    rw [List.length_nil, eq_comm, List.length_eq_zero_iff] at hlen
    rw [hlen] at h
    exact absurd h (lt_irrefl _)
  | cons x a ih =>
    cases b with
    | nil => exact absurd hlen (by simp)
    | cons y b =>
      rw [List.cons_append, List.cons_append, List.cons_lt_cons_iff]
      rcases List.cons_lt_cons_iff.1 h with hxy | ⟨hxy, hab⟩
      · exact .inl hxy
      · exact .inr ⟨hxy, ih (by simpa using hlen) hab⟩

theorem fixedDigits_lt {base width m n : ℕ} (hpos : 0 < base) (hbase : base ≤ 16)
    (hn : n < base ^ width) (h : m < n) :
    fixedDigits base width m < fixedDigits base width n := by
  induction width generalizing m n with
  | zero =>
    rw [pow_zero] at hn
    omega
  | succ width ih =>
    rw [fixedDigits, fixedDigits]
    rcases (Nat.div_le_div_right (c := base) h.le).lt_or_eq with hlt | heq
    · refine append_lt_append_of_lt ?_ (ih ?_ hlt)
      · rw [length_fixedDigits, length_fixedDigits]
      · rw [pow_succ] at hn
        exact Nat.div_lt_of_lt_mul (by rwa [Nat.mul_comm])
    · rw [heq]
      refine List.append_left_lt ?_
      rw [List.cons_lt_cons_iff]
      have hmod : m % base < n % base := by
        have hm := Nat.div_add_mod m base
        have hn := Nat.div_add_mod n base
        rw [heq] at hm
        omega
      exact .inl (digitChar_lt ((Nat.mod_lt n hpos).trans_le hbase) hmod)

theorem decimal6_lt {m n : ℕ} (hn : n < 10 ^ 6) (h : m < n) : decimal6 m < decimal6 n := by
  rw [decimal6, decimal6, if_pos (h.trans hn), if_pos hn]
  exact fixedDigits_lt (by decide) (by decide) hn h

theorem length_sha1Hex (digest : BitVec 160) : (sha1Hex digest).length = 40 :=
  length_fixedDigits 16 40 _

theorem sha1Hex_lt {d e : BitVec 160} (h : d < e) : sha1Hex d < sha1Hex e :=
  fixedDigits_lt (by decide) (by decide) (e.isLt.trans_le (by decide)) h

theorem length_decimal6 {n : ℕ} (hn : n < 10 ^ 6) : (decimal6 n).length = 6 := by
  rw [decimal6, if_pos hn, length_fixedDigits]

/-! ## Names with an id -/

/-- `id:%06u,` and a description. -/
def idName (id : ℕ) (description : List Char) : FileName :=
  ['i', 'd', ':'] ++ decimal6 id ++ ',' :: description

theorem fixedDigits_head {base : ℕ} (hpos : 0 < base) (width n : ℕ) :
    ∃ d < base, ∃ rest, fixedDigits base (width + 1) n = Nat.digitChar d :: rest := by
  induction width generalizing n with
  | zero => exact ⟨n % base, Nat.mod_lt n hpos, [], rfl⟩
  | succ width ih =>
    obtain ⟨d, hd, rest, h⟩ := ih (n / base)
    rw [fixedDigits, h]
    exact ⟨d, hd, _, rfl⟩

theorem length_decimal6_of_le {n : ℕ} (hn : 10 ^ 6 ≤ n) : 6 < (decimal6 n).length := by
  rw [decimal6, if_neg hn.not_gt]
  by_contra hle
  exact hn.not_gt ((Nat.length_toDigits_le_iff (by decide) (by decide)).1 (Nat.not_lt.1 hle))

theorem decimal6_inj {m n : ℕ} (h : decimal6 m = decimal6 n) : m = n := by
  by_cases hm : m < 10 ^ 6
  · by_cases hn : n < 10 ^ 6
    · rcases lt_trichotomy m n with hlt | heq | hgt
      · exact absurd h (decimal6_lt hn hlt).ne
      · exact heq
      · exact absurd h (decimal6_lt hm hgt).ne'
    · have hlen := length_decimal6_of_le (Nat.not_lt.1 hn)
      rw [← h, length_decimal6 hm] at hlen
      exact absurd hlen (lt_irrefl 6)
  · by_cases hn : n < 10 ^ 6
    · have hlen := length_decimal6_of_le (Nat.not_lt.1 hm)
      rw [h, length_decimal6 hn] at hlen
      exact absurd hlen (lt_irrefl 6)
    · rw [decimal6, decimal6, if_neg hm, if_neg hn] at h
      rw [← Nat.ofDigitChars_ten_toDigits (n := m), h, Nat.ofDigitChars_ten_toDigits]

theorem idName_lt {m n : ℕ} (hn : n < 10 ^ 6) (h : m < n) (d e : List Char) :
    idName m d < idName n e := by
  refine append_lt_append_of_lt ?_ (List.append_left_lt (decimal6_lt hn h))
  rw [List.length_append, List.length_append, length_decimal6 (h.trans hn), length_decimal6 hn]

/-- The first id with seven digits comes before the last one with six. -/
theorem idName_not_lt (d e : List Char) : ¬idName 999999 d < idName 1000000 e := by
  have hsix : decimal6 999999 = ['9', '9', '9', '9', '9', '9'] := by decide
  have hseven : decimal6 1000000 = ['1', '0', '0', '0', '0', '0', '0'] := by decide
  rw [idName, idName, hsix, hseven]
  have hlt : ¬ ('9' < '1') := by decide
  have hne : '9' ≠ '1' := by decide
  simp [List.cons_lt_cons_iff, hlt, hne]

end AflPlusPlus.QueueNames
