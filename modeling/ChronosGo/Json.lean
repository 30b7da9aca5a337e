import Mathlib.Algebra.Group.Int.Defs
import Mathlib.Algebra.Group.Nat.Defs
import Mathlib.Data.List.Perm.Basic
import Mathlib.Data.Int.Basic
import Mathlib.Data.Nat.Log
import ChronosGo.Base64

/-! # JSON documents, Lua's `cjson` and Go's `encoding/json`

A document is a tree whose numbers are the literals as they are written.  Two
programs read and write it.

* `cjson` turns a document into Lua tables and back.  A number becomes a double
  and is printed with fourteen significant digits (`%.14g`), the fields of a table
  come out in an order of their own, and an empty table is always an object.
* `encoding/json` writes a struct as an object, leaves the empty `omitempty`
  fields out, and reads a field that is absent or null as the zero value.  An
  integer field takes an integer literal only.

Texts are taken to survive both, so that a document stands for its text.
-/
namespace Json

variable {n : Int}

/-! ## Documents -/

/-- A document over a type of numbers: `Literal` in a text, a double in Lua. -/
inductive Value (ν : Type) where
  | null
  | bool (b : Bool)
  | num (x : ν)
  | str (s : String)
  | arr (xs : List (Value ν))
  | obj (fs : List (String × Value ν))

/-- The value of a field, null if there is none. -/
def field {ν : Type} (fs : List (String × Value ν)) (k : String) : Value ν :=
  (fs.lookup k).getD .null

/-- A number as it is written: an integer, or digits with an exponent, standing
for `mantissa * 10 ^ exponent`. -/
inductive Literal where
  | int (n : Int)
  | sci (mantissa : Int) (exponent : Nat)
deriving DecidableEq, Repr

def Literal.value : Literal → Int
  | .int n => n
  | .sci m e => m * 10 ^ e

/-! ## Doubles

All numbers here are integers, so a double is an integer too: one of 53
significant bits. -/

/-- The quotient rounded to the nearest integer, halves to even. -/
def roundDiv (n d : Nat) : Nat :=
  if 2 * (n % d) < d ∨ 2 * (n % d) = d ∧ n / d % 2 = 0 then n / d else n / d + 1

/-- The double nearest to an integer. -/
def double (n : Int) : Int :=
  let scale := 2 ^ (n.natAbs.log2 - 52)
  n.sign * (roundDiv n.natAbs scale * scale : Nat)

/-- The least integer that `%.14g` prints with an exponent. -/
def printLimit : Nat := 10 ^ 14

/-- `%.14g` of an integral double: the integer itself when it has at most fourteen
digits, and fourteen significant digits with an exponent otherwise. -/
def printG (x : Int) : Literal :=
  if x.natAbs < printLimit then .int x
  else
    let shift := Nat.log 10 x.natAbs - 13
    .sci (x.sign * roundDiv x.natAbs (10 ^ shift)) shift

theorem le_roundDiv (n d : Nat) : n / d ≤ roundDiv n d := by
  unfold roundDiv
  split <;> omega

theorem roundDiv_one (n : Nat) : roundDiv n 1 = n := by
  simp [roundDiv, Nat.mod_one]

/-- Integers of at most 53 bits are doubles. -/
theorem double_eq (h : n.natAbs < 2 ^ 53) : double n = n := by
  have hlog : n.natAbs.log2 - 52 = 0 := by
    by_cases h0 : n.natAbs = 0
    · rw [h0]; rfl
    · have := (Nat.log2_lt h0).mpr h
      omega
  simp only [double, hlog, Nat.pow_zero, roundDiv_one, Nat.mul_one]
  exact Int.sign_mul_natAbs n

/-- A larger integer stays as large. -/
theorem le_natAbs_double (h : 2 ^ 53 ≤ n.natAbs) : 2 ^ 53 ≤ (double n).natAbs := by
  have h0 : n.natAbs ≠ 0 := by
    intro h0
    rw [h0] at h
    exact absurd h (by decide)
  have hlog : 53 ≤ n.natAbs.log2 := (Nat.le_log2 h0).mpr h
  have hsign : n.sign.natAbs = 1 := Int.natAbs_sign_of_ne_zero (by omega)
  have hdiv : 2 ^ 52 ≤ n.natAbs / 2 ^ (n.natAbs.log2 - 52) := by
    rw [Nat.le_div_iff_mul_le (Nat.two_pow_pos _), ← Nat.pow_add, Nat.add_sub_cancel' (by omega)]
    exact Nat.log2_self_le h0
  calc 2 ^ 53 = 2 ^ 52 * 2 := by decide
    _ ≤ roundDiv n.natAbs (2 ^ (n.natAbs.log2 - 52)) * 2 ^ (n.natAbs.log2 - 52) := by
        refine Nat.mul_le_mul (hdiv.trans (le_roundDiv _ _)) ?_
        exact Nat.le_self_pow (by omega) 2
    _ = (double n).natAbs := by
        simp [double, Int.natAbs_mul, hsign]

/-- The literal that an integer is printed as, after it was read as a double. -/
theorem printG_double (h : n.natAbs < printLimit) : printG (double n) = .int n := by
  rw [double_eq (h.trans (by decide)), printG, if_pos h]

theorem printG_double_sci (h : printLimit ≤ n.natAbs) :
    ∃ m e, printG (double n) = .sci m e := by
  have hlarge : ¬ (double n).natAbs < printLimit := by
    by_cases hn : n.natAbs < 2 ^ 53
    · rw [double_eq hn]
      exact not_lt.mpr h
    · have := le_natAbs_double (not_lt.mp hn)
      exact not_lt.mpr (le_trans (by decide) this)
  exact ⟨_, _, by rw [printG, if_neg hlarge]⟩

/-! ## `cjson` -/

mutual

/-- Apply a function to every number. -/
def Value.map {ν μ : Type} (f : ν → μ) : Value ν → Value μ
  | .null => .null
  | .bool b => .bool b
  | .num x => .num (f x)
  | .str s => .str s
  | .arr xs => .arr (mapElems f xs)
  | .obj fs => .obj (mapFields f fs)

def mapElems {ν μ : Type} (f : ν → μ) : List (Value ν) → List (Value μ)
  | [] => []
  | x :: xs => x.map f :: mapElems f xs

def mapFields {ν μ : Type} (f : ν → μ) : List (String × Value ν) → List (String × Value μ)
  | [] => []
  | (k, x) :: fs => (k, x.map f) :: mapFields f fs

end

/-- The order in which the fields of a table are written: any one, the language
promises none. -/
structure TableOrder where
  arrange : List (String × Value Literal) → List (String × Value Literal)
  perm : ∀ fs, (arrange fs).Perm fs

namespace Cjson

/-- `cjson.decode`. -/
def decode : Value Literal → Value Int := Value.map fun l => double l.value

mutual

/-- `cjson.encode`. -/
def encode (o : TableOrder) : Value Int → Value Literal
  | .null => .null
  | .bool b => .bool b
  | .num x => .num (printG x)
  | .str s => .str s
  | .arr [] => .obj []
  | .arr (x :: xs) => .arr (encode o x :: encodeElems o xs)
  | .obj fs => .obj (o.arrange (encodeFields o fs))

def encodeElems (o : TableOrder) : List (Value Int) → List (Value Literal)
  | [] => []
  | x :: xs => encode o x :: encodeElems o xs

def encodeFields (o : TableOrder) : List (String × Value Int) → List (String × Value Literal)
  | [] => []
  | (k, x) :: fs => (k, encode o x) :: encodeFields o fs

end

/-- The assignment `t[k] = x` to a field of a table. -/
def setField (k : String) (x : Value Int) : Value Int → Value Int
  | .obj fs => .obj ((k, x) :: fs.filter fun f => f.1 ≠ k)
  | v => v

/-- A document read and written again. -/
def reprint (o : TableOrder) (v : Value Literal) : Value Literal := encode o (decode v)

end Cjson

/-! ## Fields of objects -/

section Fields
variable {ν μ : Type}

theorem mapElems_eq (f : ν → μ) (xs : List (Value ν)) : mapElems f xs = xs.map (Value.map f) := by
  induction xs with
  | nil => rfl
  | cons x xs ih => rw [mapElems, ih, List.map_cons]

theorem mapFields_eq (f : ν → μ) (fs : List (String × Value ν)) :
    mapFields f fs = fs.map (Prod.map id (Value.map f)) := by
  induction fs with
  | nil => rfl
  | cons p fs ih => rw [mapFields, ih, List.map_cons, Prod.map, id]

theorem Cjson.encodeElems_eq (o : TableOrder) (xs : List (Value Int)) :
    encodeElems o xs = xs.map (encode o) := by
  induction xs with
  | nil => rfl
  | cons x xs ih => rw [encodeElems, ih, List.map_cons]

theorem Cjson.encodeFields_eq (o : TableOrder) (fs : List (String × Value Int)) :
    encodeFields o fs = fs.map (Prod.map id (encode o)) := by
  induction fs with
  | nil => rfl
  | cons p fs ih => rw [encodeFields, ih, List.map_cons, Prod.map, id]

theorem keys_map (g : Value ν → Value μ) (fs : List (String × Value ν)) :
    (fs.map (Prod.map id g)).map Prod.fst = fs.map Prod.fst := by
  rw [List.map_map]
  rfl

theorem lookup_map (g : Value ν → Value μ) (fs : List (String × Value ν)) (k : String) :
    (fs.map (Prod.map id g)).lookup k = (fs.lookup k).map g := by
  induction fs with
  | nil => rfl
  | cons p fs ih =>
    rw [List.map_cons, List.lookup_cons, List.lookup_cons, ih]
    cases h : k == p.1 <;> simp [h]

/-- A function that keeps null acts on the fields one by one. -/
theorem field_map {g : Value ν → Value μ} (hg : g .null = .null) (fs : List (String × Value ν))
    (k : String) : field (fs.map (Prod.map id g)) k = g (field fs k) := by
  rw [field, lookup_map, field]
  cases fs.lookup k with
  | none => exact hg.symm
  | some v => rfl

theorem lookup_eq_some_iff {fs : List (String × Value ν)} (h : (fs.map Prod.fst).Nodup)
    {k : String} {v : Value ν} : fs.lookup k = some v ↔ (k, v) ∈ fs := by
  induction fs with
  | nil => simp
  | cons p fs ih =>
    obtain ⟨j, w⟩ := p
    obtain ⟨hj, h⟩ := List.nodup_cons.mp h
    by_cases hk : k = j
    · subst hk
      have hv : (k, v) ∉ fs := fun hm => hj (List.mem_map.mpr ⟨_, hm, rfl⟩)
      simp [hv, eq_comm]
    · have hk' : (k == j) = false := beq_eq_false_iff_ne.mpr hk
      simp [List.lookup_cons, hk', hk, ih h]

/-- The order of the fields does not matter. -/
theorem field_perm {fs fs' : List (String × Value ν)} (h : (fs.map Prod.fst).Nodup)
    (hp : fs'.Perm fs) (k : String) : field fs' k = field fs k := by
  have h' : (fs'.map Prod.fst).Nodup := (hp.map _).nodup_iff.mpr h
  have hl : fs'.lookup k = fs.lookup k := by
    ext v
    rw [lookup_eq_some_iff h', lookup_eq_some_iff h, hp.mem_iff]
  rw [field, field, hl]

theorem field_assign (fs : List (String × Value ν)) (k : String) (x : Value ν) (j : String) :
    field ((k, x) :: fs.filter fun f => f.1 ≠ k) j = if j = k then x else field fs j := by
  by_cases hj : j = k
  · subst hj
    simp [field]
  · have hl : (fs.filter fun f => f.1 ≠ k).lookup j = fs.lookup j := by
      induction fs with
      | nil => rfl
      | cons p fs ih =>
        by_cases hp : p.1 = k
        · have hjp : (j == p.1) = false := beq_eq_false_iff_ne.mpr fun h => hj (h.trans hp)
          rw [List.filter_cons_of_neg (by simp [hp]), ih, List.lookup_cons, hjp]
        · rw [List.filter_cons_of_pos (by simp [hp]), List.lookup_cons, List.lookup_cons, ih]
    have hjk : (j == k) = false := beq_eq_false_iff_ne.mpr hj
    rw [if_neg hj, field, List.lookup_cons, hjk, hl, field]

theorem keys_assign {fs : List (String × Value ν)} (h : (fs.map Prod.fst).Nodup) (k : String)
    (x : Value ν) : (((k, x) :: fs.filter fun f => f.1 ≠ k).map Prod.fst).Nodup := by
  rw [List.map_cons, List.nodup_cons]
  refine ⟨fun hk => ?_, (List.filter_sublist.map _).nodup h⟩
  obtain ⟨p, hp, hpk⟩ := List.mem_map.mp hk
  simpa [hpk] using (List.mem_filter.mp hp).2

end Fields

/-! ## `encoding/json` -/

/-- The fields of a struct: those that `omitempty` leaves out are `none`. -/
def present (fs : List (String × Option (Value Literal))) : List (String × Value Literal) :=
  fs.filterMap fun f => f.2.map (f.1, ·)

/-- An `omitempty` field. -/
def omitEmpty {α : Type} [DecidableEq α] (zero : α) (write : α → Value Literal) (a : α) :
    Option (Value Literal) := if a = zero then none else some (write a)

def int (n : Int) : Value Literal := .num (.int n)

def bytes (b : List UInt8) : Value Literal := .str (Base64.encode b)

def list {α : Type} (write : α → Value Literal) (as : List α) : Value Literal :=
  .arr (as.map write)

def readString : Value Literal → Option String
  | .null => some ""
  | .str s => some s
  | _ => none

def readBool : Value Literal → Option Bool
  | .null => some false
  | .bool b => some b
  | _ => none

/-- An integer field takes an integer literal only. -/
def readInt : Value Literal → Option Int
  | .null => some 0
  | .num (.int n) => some n
  | _ => none

/-- An integer field that is never negative. -/
def readNat (v : Value Literal) : Option Nat := do
  let n ← readInt v
  if 0 ≤ n then some n.toNat else none

def readBytes : Value Literal → Option (List UInt8)
  | .null => some []
  | .str s => Base64.decode s
  | _ => none

/-- A slice. -/
def readList {α : Type} (read : Value Literal → Option α) : Value Literal → Option (List α)
  | .null => some []
  | .arr xs => xs.mapM read
  | _ => none

/-- A pointer. -/
def readPointer {α : Type} (read : Value Literal → Option α) : Value Literal → Option (Option α)
  | .null => some none
  | v => (read v).map some

/-- A struct, from its fields. -/
def readStruct {α : Type} (read : (String → Value Literal) → Option α) : Value Literal → Option α
  | .null => read fun _ => .null
  | .obj fs => read (field fs)
  | _ => none

/-- The value of a struct's field, null if it is left out. -/
def written (fs : List (String × Option (Value Literal))) (k : String) : Value Literal :=
  ((fs.lookup k).getD none).getD .null

theorem present_cons_none (k : String) (fs : List (String × Option (Value Literal))) :
    present ((k, none) :: fs) = present fs := rfl

theorem present_cons_some (k : String) (v : Value Literal)
    (fs : List (String × Option (Value Literal))) :
    present ((k, some v) :: fs) = (k, v) :: present fs := rfl

theorem keys_present_sublist (fs : List (String × Option (Value Literal))) :
    ((present fs).map Prod.fst).Sublist (fs.map Prod.fst) := by
  induction fs with
  | nil => exact .slnil
  | cons f fs ih =>
    obtain ⟨k, _ | v⟩ := f
    · exact .cons _ ih
    · exact .cons_cons _ ih

variable {fs : List (String × Option (Value Literal))}

theorem field_present (h : (fs.map Prod.fst).Nodup) (k : String) :
    field (present fs) k = written fs k := by
  induction fs with
  | nil => rfl
  | cons f fs ih =>
    obtain ⟨j, v⟩ := f
    obtain ⟨hj, h⟩ := List.nodup_cons.mp h
    have ih := ih h
    by_cases hk : k = j
    · subst hk
      cases v with
      | none =>
        have hl : (present fs).lookup k = none := by
          rw [List.lookup_eq_none_iff]
          intro p hp
          have := (keys_present_sublist fs).subset (List.mem_map.mpr ⟨p, hp, rfl⟩)
          simp only [bne_iff_ne, ne_eq]
          intro hkp
          exact hj (hkp ▸ this)
        simp [present_cons_none, written, field, hl]
      | some v => simp [present_cons_some, written, field]
    · have hk' : (k == j) = false := beq_eq_false_iff_ne.mpr hk
      cases v with
      | none => simpa [present_cons_none, written, field, List.lookup_cons, hk'] using ih
      | some v => simpa [present_cons_some, written, field, List.lookup_cons, hk'] using ih

/-! ## What a rewriting keeps -/

/-- A rewriting of documents that keeps texts, truth values, null and the shape of
what is not empty, and moves fields around at most.  A number it either keeps or
makes unreadable for an integer field. -/
structure Rewriting (g : Value Literal → Value Literal) : Prop where
  null : g .null = .null
  bool (b : Bool) : g (.bool b) = .bool b
  str (s : String) : g (.str s) = .str s
  arr (x : Value Literal) (xs : List (Value Literal)) : g (.arr (x :: xs)) = .arr ((x :: xs).map g)
  obj {fs : List (String × Value Literal)} : (fs.map Prod.fst).Nodup →
    ∃ fs', g (.obj fs) = .obj fs' ∧ ∀ k, field fs' k = g (field fs k)
  zero : g (int 0) = int 0
  int (n : Int) : g (int n) = int n ∨ readInt (g (int n)) = none

theorem rewriting_id : Rewriting id where
  null := rfl
  bool _ := rfl
  str _ := rfl
  arr x xs := by rw [List.map_id]; rfl
  obj _ := ⟨_, rfl, fun _ => rfl⟩
  zero := rfl
  int _ := .inl rfl

namespace Cjson
variable (o : TableOrder)

theorem reprint_int (h : n.natAbs < printLimit) : reprint o (int n) = int n := by
  simp only [reprint, int, decode, Value.map, encode, Literal.value, printG_double h]

theorem readInt_reprint (h : printLimit ≤ n.natAbs) :
    readInt (reprint o (int n)) = none := by
  obtain ⟨m, e, he⟩ := printG_double_sci h
  simp only [reprint, int, decode, Value.map, encode, Literal.value, he, readInt]

theorem reprint_obj (fs : List (String × Value Literal)) :
    reprint o (.obj fs) = .obj (o.arrange (fs.map (Prod.map id (reprint o)))) := by
  simp only [reprint, decode, Value.map, encode, mapFields_eq, encodeFields_eq, List.map_map]
  rfl

/-- Reading an object, assigning a field and writing it again replaces that field
and reprints the others. -/
theorem encode_setField {fs : List (String × Value Literal)} (h : (fs.map Prod.fst).Nodup)
    (k : String) (x : Value Int) :
    ∃ fs', encode o (setField k x (decode (.obj fs))) = .obj fs' ∧
      ∀ j, field fs' j = if j = k then encode o x else reprint o (field fs j) := by
  refine ⟨_, rfl, fun j => ?_⟩
  rw [mapFields_eq, encodeFields_eq]
  have hkeys :=
    keys_assign ((keys_map (Value.map fun l : Literal => double l.value) fs).symm ▸ h) k x
  rw [field_perm ((keys_map _ _).symm ▸ hkeys) (o.perm _), field_map rfl, field_assign,
    field_map rfl]
  split <;> rfl

/-- **`cjson` keeps a document up to its large numbers.** -/
theorem rewriting_reprint : Rewriting (reprint o) where
  null := rfl
  bool _ := rfl
  str _ := rfl
  arr x xs := by
    simp only [reprint, decode, Value.map, mapElems, encode, mapElems_eq, encodeElems_eq,
      List.map_cons, List.map_map]
    rfl
  obj {fs} h := by
    refine ⟨_, reprint_obj o fs, fun k => ?_⟩
    rw [field_perm ((keys_map _ fs).symm ▸ h) (o.perm _), field_map rfl]
  zero := reprint_int o (by decide)
  int n := by
    by_cases h : n.natAbs < printLimit
    · exact .inl (reprint_int o h)
    · exact .inr (readInt_reprint o (not_lt.mp h))

end Cjson

section Readers
variable {g : Value Literal → Value Literal} (hg : Rewriting g)
variable {α : Type} {read : Value Literal → Option α} {write : α → Value Literal} {as : List α}

include hg

theorem readString_rewriting (s : String) : readString (g (.str s)) = some s := by
  rw [hg.str]; rfl

theorem readBool_rewriting (b : Bool) : readBool (g (.bool b)) = some b := by
  rw [hg.bool]; rfl

theorem readBytes_rewriting (b : List UInt8) : readBytes (g (bytes b)) = some b := by
  rw [bytes, hg.str, readBytes, Base64.decode_encode]

omit hg in
theorem readInt_kept (h : g (int n) = int n) : readInt (g (int n)) = some n := by
  rw [h]; rfl

omit hg in
theorem readNat_kept {n : Nat} (h : g (int n) = int n) : readNat (g (int n)) = some n := by
  simp [readNat, readInt_kept h]

omit hg in
theorem readNat_lost {v : Value Literal} (h : readInt v = none) : readNat v = none := by
  simp [readNat, h]

/-- A field that may be left out reads as it was. -/
theorem read_omitEmpty [DecidableEq α] {zero a : α} (hz : read .null = some zero)
    (hw : a ≠ zero → read (g (write a)) = some a) :
    read (g ((omitEmpty zero write a).getD .null)) = some a := by
  unfold omitEmpty
  split
  · next h => rw [Option.getD_none, hg.null, hz, h]
  · next h => exact hw h

theorem readInt_omitEmpty (h : g (int n) = int n) :
    readInt (g ((omitEmpty 0 int n).getD .null)) = some n :=
  read_omitEmpty hg rfl fun _ => readInt_kept h

theorem readNat_omitEmpty {n : Nat} (h : g (int n) = int n) :
    readNat (g ((omitEmpty 0 (fun n : Nat => int n) n).getD .null)) = some n :=
  read_omitEmpty hg rfl fun _ => readNat_kept h

/-- A lost number is not zero, so that its field is written. -/
theorem readInt_omitEmpty_lost (h : readInt (g (int n)) = none) :
    readInt (g ((omitEmpty 0 int n).getD .null)) = none := by
  have hn : n ≠ 0 := by
    rintro rfl
    rw [hg.zero] at h
    cases h
  rw [omitEmpty, if_neg hn, Option.getD_some, h]

theorem readNat_omitEmpty_lost {n : Nat} (h : readInt (g (int n)) = none) :
    readNat (g ((omitEmpty 0 (fun n : Nat => int n) n).getD .null)) = none := by
  have hn : n ≠ 0 := by
    rintro rfl
    rw [Int.natCast_zero, hg.zero] at h
    cases h
  rw [omitEmpty, if_neg hn, Option.getD_some, readNat_lost h]

theorem readString_omitEmpty (s : String) :
    readString (g ((omitEmpty "" .str s).getD .null)) = some s :=
  read_omitEmpty hg rfl fun _ => readString_rewriting hg s

theorem readBool_omitEmpty (b : Bool) :
    readBool (g ((omitEmpty false .bool b).getD .null)) = some b :=
  read_omitEmpty hg rfl fun _ => readBool_rewriting hg b

theorem readBytes_omitEmpty (b : List UInt8) :
    readBytes (g ((omitEmpty [] bytes b).getD .null)) = some b :=
  read_omitEmpty hg rfl fun _ => readBytes_rewriting hg b

theorem readStruct_rewriting {read : (String → Value Literal) → Option α}
    (h : (fs.map Prod.fst).Nodup) :
    readStruct read (g (.obj (present fs))) = read fun k => g (written fs k) := by
  obtain ⟨fs', hfs, hk⟩ := hg.obj ((keys_present_sublist fs).nodup h)
  rw [hfs, readStruct]
  congr 1
  funext k
  rw [hk, field_present h]

omit hg in
theorem mapM_eq_some (h : ∀ a ∈ as, read (write a) = some a) :
    (as.map write).mapM read = some as := by
  induction as with
  | nil => rfl
  | cons a as ih =>
    have ih := ih fun b hb => h b (List.mem_cons_of_mem a hb)
    simp [List.mapM_cons, h a List.mem_cons_self, ih]

omit hg in
theorem mapM_eq_none {β : Type} {f : α → Option β} {a : α} (ha : a ∈ as) (h : f a = none) :
    as.mapM f = none := by
  induction as with
  | nil => exact absurd ha List.not_mem_nil
  | cons b as ih =>
    rcases List.mem_cons.mp ha with rfl | ha
    · simp [List.mapM_cons, h]
    · simp [List.mapM_cons, ih ha]

theorem arr_rewriting {xs : List (Value Literal)} (h : xs ≠ []) :
    g (.arr xs) = .arr (xs.map g) := by
  cases xs with
  | nil => exact absurd rfl h
  | cons x xs => exact hg.arr x xs

theorem readList_omitEmpty [DecidableEq α] (h : ∀ a ∈ as, read (g (write a)) = some a) :
    readList read (g ((omitEmpty [] (list write) as).getD .null)) = some as := by
  refine read_omitEmpty hg rfl fun hne => ?_
  rw [list, arr_rewriting hg (fun hnil => hne (List.map_eq_nil_iff.mp hnil)), List.map_map,
    readList]
  exact mapM_eq_some h

/-- One element that cannot be read makes a list unreadable. -/
theorem readList_omitEmpty_lost [DecidableEq α] {a : α} (ha : a ∈ as)
    (h : read (g (write a)) = none) :
    readList read (g ((omitEmpty [] (list write) as).getD .null)) = none := by
  have hne : as ≠ [] := List.ne_nil_of_mem ha
  rw [omitEmpty, if_neg hne, Option.getD_some, list,
    arr_rewriting hg (fun hnil => hne (List.map_eq_nil_iff.mp hnil)), List.map_map, readList]
  exact mapM_eq_none (List.mem_map.mpr ⟨a, ha, rfl⟩) h

/-- A pointer to a struct. -/
theorem readPointer_rewriting {read : (String → Value Literal) → Option α}
    (h : (fs.map Prod.fst).Nodup) :
    readPointer (readStruct read) (g (.obj (present fs))) =
      (readStruct read (g (.obj (present fs)))).map some := by
  obtain ⟨fs', hfs, -⟩ := hg.obj ((keys_present_sublist fs).nodup h)
  rw [hfs, readPointer]
  exact fun h => by cases h

end Readers

end Json
