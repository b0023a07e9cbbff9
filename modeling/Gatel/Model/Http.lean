import Gatel.Model.Hash

namespace Gatel

/-- `u64::saturating_add`. -/
def saturatingAdd (a b : Nat) : Nat := min (a + b) (2 ^ 64 - 1)

def U64.saturatingNext (n : U64) : U64 := if h : n.val + 1 < 2 ^ 64 then ⟨n.val + 1, h⟩ else n

/-- A monotonic clock reading in nanoseconds. -/
abbrev Instant := Nat

/-- `HeaderValue::to_str`: visible ASCII and tabs only. -/
def HeaderValue.toStr (value : List UInt8) : Option String :=
  if value.all fun b => (32 ≤ b && b < 127) || b == 9 then some (String.ofList (value.map fun b => Char.ofNat b.toNat))
  else none

/-- What `HeaderName::from_bytes` accepts. -/
def HeaderName.isValid (name : String) : Bool :=
  name ≠ "" && name.utf8ByteSize < 2 ^ 16 &&
    name.toList.all fun c => c.isAlphanum || "!#$%&'*+-.^_`|~".toList.contains c

/-- Header fields in the order they are iterated; names are in lower case. -/
abbrev HeaderMap := List (String × List UInt8)

namespace HeaderMap

def getAll (headers : HeaderMap) (name : String) : List (List UInt8) :=
  headers.filterMap fun field => if field.1 = name then some field.2 else none

def remove (headers : HeaderMap) (name : String) : HeaderMap := headers.filter fun field => field.1 ≠ name

def containsKey (headers : HeaderMap) (name : String) : Bool := headers.any fun field => field.1 = name

/-- The first value of a field. -/
def get (headers : HeaderMap) (name : String) : Option (List UInt8) := (headers.getAll name).head?

/-- The field names, each once. -/
def keys (headers : HeaderMap) : List String := (headers.map Prod.fst).dedup

def append (headers : HeaderMap) (name : String) (value : List UInt8) : HeaderMap := headers ++ [(name, value)]

/-- Replace every value of a field by one. -/
def insert (headers : HeaderMap) (name : String) (value : List UInt8) : HeaderMap :=
  headers.remove name ++ [(name, value)]

theorem getAll_remove_self (headers : HeaderMap) (name : String) : (headers.remove name).getAll name = [] := by
  simp [getAll, remove, List.filterMap_eq_nil_iff]

theorem getAll_remove_ne (headers : HeaderMap) {name other : String} (h : other ≠ name) :
    (headers.remove name).getAll other = headers.getAll other := by
  induction headers with
  | nil => rfl
  | cons field headers ih =>
    simp only [getAll, remove] at ih ⊢
    by_cases hf : field.1 = name
    · have ho : field.1 ≠ other := fun he => h (he.symm.trans hf)
      simp [hf, ← ih, Ne.symm h]
    · simp [hf, ← ih, List.filterMap_cons]

theorem getAll_append (a b : HeaderMap) (name : String) : HeaderMap.getAll (a ++ b) name = a.getAll name ++ b.getAll name :=
  List.filterMap_append

theorem getAll_insert_self (headers : HeaderMap) (name : String) (value : List UInt8) :
    (headers.insert name value).getAll name = [value] := by
  rw [insert, getAll_append, getAll_remove_self]
  simp [getAll]

theorem getAll_insert_ne (headers : HeaderMap) {name other : String} (h : other ≠ name) (value : List UInt8) :
    (headers.insert name value).getAll other = headers.getAll other := by
  rw [insert, getAll_append, getAll_remove_ne headers h]
  simp [getAll, h.symm]

theorem getAll_filter (headers : HeaderMap) (p : String → Bool) (name : String) :
    HeaderMap.getAll (headers.filter fun field => p field.1) name = if p name = true then headers.getAll name else [] := by
  induction headers with
  | nil => simp [getAll]
  | cons field headers ih =>
    simp only [getAll, List.filter_cons, List.filterMap_cons] at ih ⊢
    by_cases hf : field.1 = name
    · rw [hf]
      by_cases hp : p name = true <;> simp [hp, hf] at ih ⊢ <;> exact ih
    · by_cases hp : p field.1 = true <;> simp [hp, hf, ih]

theorem mem_getAll {headers : HeaderMap} {name : String} {value : List UInt8} :
    value ∈ headers.getAll name ↔ (name, value) ∈ headers := by
  rw [getAll, List.mem_filterMap]
  constructor
  · rintro ⟨⟨n, v⟩, hm, he⟩
    split at he
    · rename_i hn
      cases hn
      cases he
      exact hm
    · cases he
  · exact fun hm => ⟨(name, value), hm, by simp⟩

theorem getAll_append_field (headers : HeaderMap) (name other : String) (value : List UInt8) :
    (headers.append name value).getAll other = headers.getAll other ++ if name = other then [value] else [] := by
  by_cases h : name = other <;> simp [HeaderMap.getAll, HeaderMap.append, h]

theorem containsKey_iff (headers : HeaderMap) (name : String) :
    headers.containsKey name = false ↔ headers.getAll name = [] := by
  simp [HeaderMap.containsKey, HeaderMap.getAll, List.filterMap_eq_nil_iff]

theorem getAll_foldl_remove (names : List String) (headers : HeaderMap) (name : String) :
    (names.foldl HeaderMap.remove headers).getAll name = if name ∈ names then [] else headers.getAll name := by
  induction names generalizing headers with
  | nil => simp
  | cons first rest ih =>
    rw [List.foldl_cons, ih]
    by_cases hfirst : name = first
    · subst hfirst
      simp [HeaderMap.getAll_remove_self]
    · simp [hfirst, HeaderMap.getAll_remove_ne headers hfirst]

end HeaderMap

end Gatel
