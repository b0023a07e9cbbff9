import Gatel.Lib.SortedMap
import Gatel.Cgi.Head

namespace Gatel.Cgi
open SortedMap (Sorted lookup replace)

/-- The error of `gatel-cgi-protocol`, as far as requests raise it. -/
inductive RequestError where
  | limit
  | invalidEnvironment
  | duplicateEnvironment
  | bodyLength
  deriving DecidableEq

def RequestError.toText : RequestError → String
  | .limit => "CGI protocol error: Limit"
  | .invalidEnvironment => "CGI protocol error: InvalidEnvironment"
  | .duplicateEnvironment => "CGI protocol error: DuplicateEnvironment"
  | .bodyLength => "CGI protocol error: BodyLength"

/-- The names of variables. -/
def validName (name : String) : Bool :=
  name ≠ "" && name.toList.all (fun c => c.isUpper || c.isDigit || c == '_') && !name.toList.head?.any Char.isDigit

/-- What an entry takes of the budget. -/
def entrySize (entry : String × List UInt8) : Nat := (utf8 entry.1).length + entry.2.length + 2

/-- Explicit, bounded environment. -/
structure Environment where
  values : List (String × List UInt8)
  bytes : Nat
  limit : Nat
  sorted : Sorted values
  valid : ∀ entry ∈ values, validName entry.1 = true ∧ 0 ∉ entry.2
  counted : bytes = (values.map entrySize).sum
  bounded : bytes ≤ limit
  capped : limit ≤ 1024 * 1024

namespace Environment

def maxBytes : Nat := 1024 * 1024

def new (limit : Nat) : Environment where
  values := []
  bytes := 0
  limit := min limit maxBytes
  sorted := List.Pairwise.nil
  valid := nofun
  counted := rfl
  bounded := Nat.zero_le _
  capped := Nat.min_le_right _ _

/-- What it answers, and what it leaves. -/
def insert (env : Environment) (name : String) (value : List UInt8) : Except RequestError Unit × Environment :=
  if hvalid : validName name = false ∨ 0 ∈ value then (.error .invalidEnvironment, env)
  else if hdup : name ∈ env.values.map Prod.fst then (.error .duplicateEnvironment, env)
  else
    let total := env.bytes + entrySize (name, value)
    if hlimit : total ≤ env.limit then
      (.ok (), { env with
        values := SortedMap.insert name value env.values
        bytes := total
        sorted := env.sorted.insert hdup
        valid := by
          intro entry he
          rcases SortedMap.mem_insert.mp he with rfl | he
          · simpa using hvalid
          · exact env.valid entry he
        counted := by
          rw [((SortedMap.insert_perm name value env.values).map entrySize).sum_eq, List.map_cons, List.sum_cons,
            ← env.counted]
          exact Nat.add_comm _ _
        bounded := hlimit })
    else (.error .limit, env)

/-- Another value for a variable that is there. -/
def replaceExisting (env : Environment) (name : String) (value : List UInt8) : Except RequestError Unit × Environment :=
  if hnul : 0 ∈ value then (.error .invalidEnvironment, env)
  else
    match hprevious : lookup name env.values with
    | none => (.error .invalidEnvironment, env)
    | some previous =>
      let total := env.bytes - previous.length + value.length
      if hlimit : total ≤ env.limit then
        (.ok (), { env with
          values := replace name value env.values
          bytes := total
          sorted := env.sorted.replace
          valid := by
            intro entry he
            rcases SortedMap.mem_replace he with ⟨rfl, hk⟩ | ⟨he, -⟩
            · obtain ⟨old, hold, rfl⟩ := List.mem_map.mp hk
              exact ⟨(env.valid old hold).1, hnul⟩
            · exact env.valid entry he
          counted := by
            have hmem := SortedMap.mem_of_lookup hprevious
            have hsum := env.sorted.sum_replace (v := value) entrySize hmem
            have hle := List.single_le_sum (fun _ _ => Nat.zero_le _) _ (List.mem_map_of_mem (f := entrySize) hmem)
            rw [← env.counted] at hsum hle
            simp only [entrySize] at hsum hle
            simp only [total]
            omega
          bounded := hlimit })
      else (.error .limit, env)

/-- The value of a variable. -/
def get (env : Environment) (name : String) : Option (List UInt8) := lookup name env.values

variable {env env' : Environment} {name : String} {value : List UInt8}

theorem insert_ok (h : env.insert name value = (.ok (), env')) :
    validName name = true ∧ name ∉ env.values.map Prod.fst ∧ env'.values = SortedMap.insert name value env.values := by
  rw [insert] at h
  split at h
  · cases h
  · rename_i hvalid
    split at h
    · cases h
    · rename_i hdup
      dsimp only at h
      split at h
      · cases h
        exact ⟨by simpa using (not_or.mp hvalid).1, hdup, rfl⟩
      · cases h

theorem insert_unchanged {e : RequestError} : (env.insert name value).1 = .error e → (env.insert name value).2 = env := by
  rw [insert]
  split
  · exact fun _ => rfl
  · split
    · exact fun _ => rfl
    · dsimp only
      split
      · nofun
      · exact fun _ => rfl

theorem replaceExisting_unchanged {e : RequestError} :
    (env.replaceExisting name value).1 = .error e → (env.replaceExisting name value).2 = env := by
  rw [replaceExisting]
  split
  · exact fun _ => rfl
  · split
    · exact fun _ => rfl
    · dsimp only
      split
      · nofun
      · exact fun _ => rfl

end Environment
end Gatel.Cgi
