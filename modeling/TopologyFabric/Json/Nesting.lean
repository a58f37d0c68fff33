import TopologyFabric.Json.Written

/-!
# The Nesting of Written Values

A scan of a text counts the brackets that are open and passes over strings. Over a written value it
comes back to where it was, and inside a written object it is strictly deeper. So no written object
is a proper prefix of another one, whatever bytes its strings have.

## Main results

- `passes_writeValue`: a scan over a written value
- `writeValue_object_cancel`: a written object ends where it ends in every text
-/

namespace TopologyFabric.Json

/-- The state of the scan. -/
structure Nesting where
  depth : ℕ
  inString : Bool
  escaped : Bool
  deriving DecidableEq

/-- The scan behind one more byte. -/
def Nesting.next (s : Nesting) (c : UInt8) : Nesting :=
  if s.escaped then { s with escaped := false }
  else if s.inString then
    if c = byte '\\' then { s with escaped := true }
    else if c = byte '"' then { s with inString := false }
    else s
  else if c = byte '"' then { s with inString := true }
  else if c = byte '[' ∨ c = byte '{' then { s with depth := s.depth + 1 }
  else if c = byte ']' ∨ c = byte '}' then { s with depth := s.depth - 1 }
  else s

/-- Outside of strings, at a depth. -/
def outside (n : ℕ) : Nesting := ⟨n, false, false⟩

/-- Inside a string, at a depth. -/
def inside (n : ℕ) : Nesting := ⟨n, true, false⟩

def scan (s : Nesting) (text : Bytes) : Nesting := text.foldl Nesting.next s

/-- The scan goes from one state to another and is nowhere above depth `n`. -/
inductive Passes (n : ℕ) : Nesting → Bytes → Nesting → Prop
  | nil {s : Nesting} (h : n ≤ s.depth) : Passes n s [] s
  | cons {s t : Nesting} {c : UInt8} {text : Bytes} (h : n ≤ s.depth)
    (hrest : Passes n (s.next c) text t) : Passes n s (c :: text) t

namespace Passes

variable {n m : ℕ} {s t u : Nesting} {text text' : Bytes}

theorem append (h : Passes n s text t) (h' : Passes n t text' u) :
    Passes n s (text ++ text') u := by
  induction h with
  | nil _ => exact h'
  | cons hdepth _ ih => exact .cons hdepth (ih h')

theorem mono (h : Passes n s text t) (hmn : m ≤ n) : Passes m s text t := by
  induction h with
  | nil hdepth => exact .nil (hmn.trans hdepth)
  | cons hdepth _ ih => exact .cons (hmn.trans hdepth) ih

theorem scan_eq (h : Passes n s text t) : scan s text = t := by
  induction h with
  | nil _ => rfl
  | cons _ _ ih => exact ih

theorem depth_prefix (h : Passes n s text t) {pre : Bytes} (hpre : pre <+: text) :
    n ≤ (scan s pre).depth := by
  induction h generalizing pre with
  | nil hdepth =>
    obtain rfl := List.prefix_nil.mp hpre
    exact hdepth
  | cons hdepth _ ih =>
    cases pre with
    | nil => exact hdepth
    | cons c pre =>
      obtain ⟨rfl, hrest⟩ := List.cons_prefix_cons.mp hpre
      exact ih hrest

end Passes

/-! ## Strings and tokens -/

section Texts

variable {n : ℕ}

/-- No byte of the text is a quote or a bracket. -/
def Plain (text : Bytes) : Prop :=
  ∀ c ∈ text, c ≠ byte '"' ∧ c ≠ byte '[' ∧ c ≠ byte '{' ∧ c ≠ byte ']' ∧ c ≠ byte '}'

instance (text : Bytes) : Decidable (Plain text) := List.decidableBAll _ _

theorem Plain.append {text text' : Bytes} (h : Plain text) (h' : Plain text') :
    Plain (text ++ text') := List.forall_mem_append.mpr ⟨h, h'⟩

theorem Plain.passes {text : Bytes} (h : Plain text) : Passes n (outside n) text (outside n) := by
  induction text with
  | nil => exact .nil le_rfl
  | cons c text ih =>
    obtain ⟨⟨hquote, hopen, hopen', hclose, hclose'⟩, hrest⟩ := List.forall_mem_cons.mp h
    have hnext : (outside n).next c = outside n := by
      simp [Nesting.next, outside, hquote, hopen, hopen', hclose, hclose']
    exact .cons le_rfl (hnext.symm ▸ ih hrest)

private theorem passes_inside {text : Bytes}
    (h : ∀ c ∈ text, c ≠ byte '\\' ∧ c ≠ byte '"') : Passes n (inside n) text (inside n) := by
  induction text with
  | nil => exact .nil le_rfl
  | cons c text ih =>
    obtain ⟨⟨hescape, hquote⟩, hrest⟩ := List.forall_mem_cons.mp h
    have hnext : (inside n).next c = inside n := by
      simp [Nesting.next, inside, hescape, hquote]
    exact .cons le_rfl (hnext.symm ▸ ih hrest)

/-- Behind a backslash any byte stays in the string. -/
private theorem passes_escape (c : UInt8) {text : Bytes}
    (h : Passes n (inside n) text (inside n)) :
    Passes n (inside n) (byte '\\' :: c :: text) (inside n) :=
  .cons le_rfl (.cons le_rfl h)

private theorem hexDigit_ne (d : ℕ) : hexDigit d ≠ byte '\\' ∧ hexDigit d ≠ byte '"' := by
  by_cases hd : d < 16
  · revert d
    decide
  · have hlen : (str "0123456789abcdef").length ≤ d := not_lt.mp hd
    rw [hexDigit, List.getD_eq_getElem?_getD, List.getElem?_eq_none hlen]
    decide

theorem passes_writeChar (c : UInt8) : Passes n (inside n) (writeChar c) (inside n) := by
  have hnil : Passes n (inside n) [] (inside n) := .nil le_rfl
  unfold writeChar
  split_ifs with hquote hescape
  · exact passes_escape _ hnil
  · exact passes_escape _ hnil
  · exact passes_escape _ hnil
  · exact passes_escape _ hnil
  · exact passes_escape _ hnil
  · exact passes_escape _ hnil
  · exact passes_escape _ hnil
  · -- four digits stand behind the escape
    refine passes_escape (byte 'u') (passes_inside ?_)
    have hzero : byte '0' ≠ byte '\\' ∧ byte '0' ≠ byte '"' := by decide
    exact List.forall_mem_cons.mpr ⟨hzero, List.forall_mem_cons.mpr ⟨hzero,
      List.forall_mem_cons.mpr ⟨hexDigit_ne _, List.forall_mem_singleton.mpr (hexDigit_ne _)⟩⟩⟩
  · exact passes_inside (by simp [hquote, hescape])

theorem passes_writeString (s : Bytes) : Passes n (outside n) (writeString s) (outside n) := by
  have hbody : Passes n (inside n) (s.flatMap writeChar) (inside n) := by
    induction s with
    | nil => exact .nil le_rfl
    | cons c s ih => exact (passes_writeChar c).append ih
  exact .cons le_rfl (hbody.append (.cons le_rfl (.nil le_rfl)))

/-- A number token has no quotes and no brackets. -/
theorem NumberToken.plain {tok : Bytes} (h : NumberToken tok) : Plain tok := by
  refine h.forall_mem (fun c hc => ?_) (by decide)
  refine ⟨?_, ?_, ?_, ?_, ?_⟩ <;> rintro rfl <;> exact absurd hc (by decide)

theorem plain_writeDouble (d : Double) : Plain (writeDouble d) := by
  by_cases hd : d = .nan
  · subst hd
    decide
  · exact (numberToken_writeDouble hd).plain

theorem plain_comma (first : Bool) : Plain (comma first) := by
  cases first <;> decide

theorem plain_indent (mode : WriteMode) (d : ℕ) : Plain (indent mode d) := by
  cases mode with
  | compact => exact fun c hc => by cases hc
  | pretty =>
    refine List.forall_mem_cons.mpr ⟨by decide, fun c hc => ?_⟩
    rw [List.eq_of_mem_replicate hc]
    decide

end Texts

/-! ## Values -/

section Values

variable {mode : WriteMode}

/-- The part of an array or an object between its brackets. -/
private theorem passes_brackets {n : ℕ} {a b : UInt8} {text : Bytes}
    (ha : (outside n).next a = outside (n + 1)) (hb : (outside (n + 1)).next b = outside n)
    (h : Passes (n + 1) (outside (n + 1)) text (outside (n + 1))) :
    Passes n (outside n) (a :: (text ++ [b])) (outside n) := by
  refine .cons le_rfl ?_
  rw [ha]
  refine (h.mono (Nat.le_succ n)).append (.cons (Nat.le_succ n) ?_)
  rw [hb]
  exact .nil le_rfl

mutual

/-- A scan over a written value comes back to where it was. -/
theorem passes_writeValue (v : Value) (d n : ℕ) :
    Passes n (outside n) (writeValue mode d v) (outside n) := by
  cases v with
  | null =>
    have hnull : Plain (str "null") := by decide
    exact hnull.passes
  | bool b =>
    have hbool : Plain (if b then str "true" else str "false") := by cases b <;> decide
    exact hbool.passes
  | int v => exact (numberToken_intToString v.toInt).plain.passes
  | uint v => exact (numberToken_natToString v.toNat).plain.passes
  | double x => exact (plain_writeDouble x).passes
  | string s => exact passes_writeString s
  | array a =>
    -- a bracket opens one level more, which its partner closes
    have hinner : Passes (n + 1) (outside (n + 1))
        (writeElements mode d true a ++ if a = [] then [] else indent mode d)
        (outside (n + 1)) := by
      refine (passes_writeElements a d (n + 1) true).append (Plain.passes ?_)
      split
      · decide
      · exact plain_indent mode d
    have h := passes_brackets (a := byte '[') (b := byte ']') rfl rfl hinner
    rwa [List.append_assoc] at h
  | object o =>
    have hinner : Passes (n + 1) (outside (n + 1))
        (writeMembers mode d true o ++ if o = [] then [] else indent mode d)
        (outside (n + 1)) := by
      refine (passes_writeMembers o d (n + 1) true).append (Plain.passes ?_)
      split
      · decide
      · exact plain_indent mode d
    have h := passes_brackets (a := byte '{') (b := byte '}') rfl rfl hinner
    rwa [List.append_assoc] at h

theorem passes_writeElements (a : List Value) (d n : ℕ) (first : Bool) :
    Passes n (outside n) (writeElements mode d first a) (outside n) := by
  cases a with
  | nil => exact .nil le_rfl
  | cons v a =>
    exact (plain_comma first).passes.append ((plain_indent mode (d + 1)).passes.append
      ((passes_writeValue v (d + 1) n).append (passes_writeElements a d n false)))

theorem passes_writeMembers (o : List (Bytes × Value)) (d n : ℕ) (first : Bool) :
    Passes n (outside n) (writeMembers mode d first o) (outside n) := by
  cases o with
  | nil => exact .nil le_rfl
  | cons e o =>
    obtain ⟨k, v⟩ := e
    have hblank : Plain (byte ':' :: if mode = .pretty then [byte ' '] else []) := by
      cases mode <;> decide
    have hrest := hblank.passes.append
      ((passes_writeValue v (d + 1) n).append (passes_writeMembers o d n false))
    exact (plain_comma first).passes.append ((plain_indent mode (d + 1)).passes.append
      ((passes_writeString k).append hrest))

end

/-- Inside a written object the scan is deeper than before it. -/
theorem depth_inside_object {o : List (Bytes × Value)} {d : ℕ} {pre : Bytes}
    (hpre : pre <+: writeValue mode d (.object o)) (hne : pre ≠ [])
    (hproper : pre ≠ writeValue mode d (.object o)) : 1 ≤ (scan (outside 0) pre).depth := by
  have hinner : Passes 1 (outside 1)
      (writeMembers mode d true o ++ if o = [] then [] else indent mode d) (outside 1) := by
    refine (passes_writeMembers o d 1 true).append (Plain.passes ?_)
    split
    · decide
    · exact plain_indent mode d
  rw [writeValue, ← List.append_assoc] at hpre hproper
  cases pre with
  | nil => exact absurd rfl hne
  | cons c pre =>
    obtain ⟨rfl, hrest⟩ := List.cons_prefix_cons.mp hpre
    rcases List.prefix_concat_iff.mp hrest with rfl | hrest
    · exact absurd rfl hproper
    · exact hinner.depth_prefix hrest

/-- A written object that starts another one is the other one. -/
theorem writeValue_object_start {o o' : List (Bytes × Value)} {d : ℕ}
    (h : writeValue mode d (.object o) <+: writeValue mode d (.object o')) :
    writeValue mode d (.object o) = writeValue mode d (.object o') := by
  by_contra hne
  have hstart : writeValue mode d (.object o) ≠ [] := by
    rw [writeValue]
    exact List.cons_ne_nil _ _
  have hdeep := depth_inside_object h hstart hne
  -- but behind the whole object the scan is back at depth zero
  rw [(passes_writeValue (.object o) d 0).scan_eq] at hdeep
  exact absurd hdeep (by decide)

/-- Two texts that are equal and start with a written object start with the same one. -/
theorem writeValue_object_cancel {o o' : List (Bytes × Value)} {d : ℕ} {rest rest' : Bytes}
    (h : writeValue mode d (.object o) ++ rest = writeValue mode d (.object o') ++ rest') :
    writeValue mode d (.object o) = writeValue mode d (.object o') := by
  rcases List.prefix_or_prefix_of_prefix (List.prefix_append _ rest)
    (h ▸ List.prefix_append _ rest') with hpre | hpre
  · exact writeValue_object_start hpre
  · exact (writeValue_object_start hpre).symm

end Values

end TopologyFabric.Json
