import Gatel.Cache.Policy

namespace Gatel.Timeout
open Cache (Response ResBody)

/-- A number of units and a fraction of one, as `fmt::Debug` writes durations. -/
def decimal (whole fraction digits : Nat) : String :=
  if fraction = 0 then toString whole
  else
    let shown := (toString fraction).toList
    let padded := List.replicate (digits - shown.length) '0' ++ shown
    toString whole ++ "." ++ String.ofList (padded.reverse.dropWhile (· = '0')).reverse

def debug (d : Duration) : String :=
  if 10 ^ 9 ≤ d.val then decimal (d.val / 10 ^ 9) (d.val % 10 ^ 9) 9 ++ "s"
  else if 10 ^ 6 ≤ d.val then decimal (d.val / 10 ^ 6) (d.val % 10 ^ 6) 6 ++ "ms"
  else if 10 ^ 3 ≤ d.val then decimal (d.val / 10 ^ 3) (d.val % 10 ^ 3) 3 ++ "µs"
  else decimal d.val 0 0 ++ "ns"

/-- What a handler further down does to the shared response. -/
inductive Write where
  | status (code : UInt16)
  | insert (name : String) (value : List UInt8)
  | append (name : String) (value : List UInt8)
  | remove (name : String)
  | body (body : ResBody)

def Write.apply (r : Response) : Write → Response
  | .status code => { r with status := some code }
  | .insert name value => { r with headers := r.headers.insert name value }
  | .append name value => { r with headers := r.headers.append name value }
  | .remove name => { r with headers := r.headers.remove name }
  | .body replaced => { r with body := replaced }

def written (r : Response) (writes : List Write) : Response := writes.foldl Write.apply r

def added (adds headers : HeaderMap) : HeaderMap := adds.foldl (fun headers field => headers.insert field.1 field.2) headers

/-- `write_body`, which may set header fields of its own. -/
def writeBody (adds : HeaderMap) (r : Response) (bytes : List UInt8) : Response :=
  let headers := added adds r.headers
  match r.body with
  | .none => { r with headers := headers, body := .once bytes }
  | .once old => { r with headers := headers, body := .once (old ++ bytes) }
  | .stream .. => r

structure TimeoutHandler where
  after : Duration
  status : UInt16

/-- How far the rest of the chain has come at the deadline. -/
inductive Rest where
  | returned (writes : List Write)
  | running (writes : List Write)

namespace TimeoutHandler

def message (s : TimeoutHandler) : List UInt8 :=
  utf8 (toString s.status.toNat ++ " the route did not answer within " ++ debug s.after ++ "\n")

/-- The response that is left behind; the flag says that it was made here. -/
def handle (adds : HeaderMap) (s : TimeoutHandler) (r : Response) : Rest → Response × Bool
  | .returned writes => (written r writes, false)
  | .running writes =>
    let r := written r writes
    (writeBody adds { r with status := some s.status, body := .none } s.message, true)

end TimeoutHandler

/-- The same status, body and fields, however the fields are stored. -/
structure Same (a b : Response) : Prop where
  status : a.status = b.status
  body : a.body = b.body
  headers : ∀ name, a.headers.getAll name = b.headers.getAll name

/-- An answer of the handler's own. -/
structure Own (adds : HeaderMap) (s : TimeoutHandler) (entry left : Response) : Prop where
  status : left.status = some s.status
  body : left.body = .once s.message
  headers : ∀ name, ∀ value ∈ left.headers.getAll name, value ∈ entry.headers.getAll name ∨ (name, value) ∈ adds

/-- Nothing of the abandoned answer is left. -/
structure Discarded (adds : HeaderMap) (s : TimeoutHandler) (entry : Response) (first second : List Write) : Prop where
  same : Same (s.handle adds entry (.running first)).1 (s.handle adds entry (.running second)).1
  first : Own adds s entry (s.handle adds entry (.running first)).1
  second : Own adds s entry (s.handle adds entry (.running second)).1

section

variable (adds : HeaderMap)

theorem mem_added {adds headers : HeaderMap} {name : String} {value : List UInt8}
    (h : value ∈ (added adds headers).getAll name) :
    value ∈ headers.getAll name ∨ (name, value) ∈ adds := by
  induction adds generalizing headers with
  | nil => exact .inl h
  | cons field adds ih =>
    rcases ih h with h | h
    · by_cases hn : name = field.1
      · subst hn
        rw [HeaderMap.getAll_insert_self, List.mem_singleton] at h
        subst h
        exact .inr List.mem_cons_self
      · rw [HeaderMap.getAll_insert_ne _ hn] at h
        exact .inl h
    · exact .inr (List.mem_cons_of_mem _ h)

theorem getAll_added (headers : HeaderMap) (name : String) :
    (added adds headers).getAll name =
      if name ∈ adds.map Prod.fst then (added adds []).getAll name
      else headers.getAll name := by
  induction adds generalizing headers with
  | nil => rfl
  | cons field adds ih =>
    have hstep (headers : HeaderMap) : added (field :: adds) headers = added adds (headers.insert field.1 field.2) := rfl
    rw [hstep, hstep, ih, ih (HeaderMap.insert [] field.1 field.2)]
    by_cases hn : name = field.1
    · subst hn
      simp [HeaderMap.getAll_insert_self]
    · rw [HeaderMap.getAll_insert_ne _ hn]
      by_cases hrest : name ∈ adds.map Prod.fst <;> simp [hn, hrest]

variable {adds}

theorem handle_running (s : TimeoutHandler) (entry : Response) (writes : List Write) : (s.handle adds entry (.running writes)).1 =
    ⟨some s.status, added adds (written entry writes).headers, .once s.message⟩ := rfl

/-- The fields are the one part that is not restored: the answer is clean exactly when the chains have left them the same, with
nothing in them that was not there before, but for those the timeout body sets again. -/
theorem discarded_iff (s : TimeoutHandler) (entry : Response) (first second : List Write) : Discarded adds s entry first second ↔
    ∀ name ∉ adds.map Prod.fst, (written entry first).headers.getAll name = (written entry second).headers.getAll name ∧
      ∀ value ∈ (written entry first).headers.getAll name, value ∈ entry.headers.getAll name := by
  constructor
  · intro h name hn
    have hkept (writes : List Write) : (s.handle adds entry (.running writes)).1.headers.getAll name =
        (written entry writes).headers.getAll name := by
      rw [handle_running, getAll_added, if_neg hn]
    refine ⟨?_, ?_⟩
    · rw [← hkept first, ← hkept second]
      exact h.same.headers name
    · intro value hv
      rw [← hkept first] at hv
      refine (h.first.headers name value hv).resolve_right fun hm => hn ?_
      exact List.mem_map_of_mem hm
  · intro h
    have hown {writes : List Write} (hw : ∀ name ∉ adds.map Prod.fst, ∀ value ∈ (written entry writes).headers.getAll name,
        value ∈ entry.headers.getAll name) : Own adds s entry (s.handle adds entry (.running writes)).1 := by
      refine ⟨rfl, rfl, ?_⟩
      intro name value hv
      rw [handle_running, getAll_added] at hv
      by_cases hn : name ∈ adds.map Prod.fst
      · rw [if_pos hn] at hv
        exact .inr ((mem_added hv).resolve_left (by simp [HeaderMap.getAll]))
      · rw [if_neg hn] at hv
        exact .inl (hw name hn value hv)
    refine ⟨⟨rfl, rfl, ?_⟩, hown fun name hn => (h name hn).2, hown fun name hn => (h name hn).1 ▸ (h name hn).2⟩
    intro name
    rw [handle_running, handle_running, getAll_added, getAll_added adds (written entry second).headers]
    by_cases hn : name ∈ adds.map Prod.fst
    · rw [if_pos hn, if_pos hn]
    · rw [if_neg hn, if_neg hn]
      exact (h name hn).1

end

/-- A field that the slow chain had set is sent with the answer that replaces it. -/
theorem field_survives : ¬ ∀ (adds : HeaderMap) (s : TimeoutHandler) (entry : Response) (first second : List Write),
    Discarded adds s entry first second := by
  intro h
  have hsame := (h [] ⟨Duration.fromSecs 1, 504⟩ ⟨none, [], .none⟩ [.insert "cache-control" (utf8 "public, max-age=3600")] []).same
  exact absurd (hsame.headers "cache-control") (by simp [TimeoutHandler.handle, written, Write.apply, writeBody, added,
    HeaderMap.getAll, HeaderMap.insert, HeaderMap.remove])

example : debug ⟨1500000000, by decide⟩ = "1.5s" := by decide +kernel

end Gatel.Timeout
