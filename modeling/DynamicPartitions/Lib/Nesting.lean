import Mathlib

/-!
# Texts in brackets

How deep a place in a text lies, where brackets between quotes do not count. A closed text
comes back to the depth it starts at and never goes above it, so that a text in brackets
and one of its proper beginnings are never both closed.
-/
namespace DynamicPartitions.Lib.Nesting

variable {α : Type*}

/-- The elements with a meaning for the nesting. -/
structure Signs (α : Type*) where
  opens : α → Bool
  closes : α → Bool
  quotes : α → Bool
  escapes : α → Bool

inductive Mode where
  | plain
  | quoted
  | escaped
deriving DecidableEq, Repr

structure Place where
  depth : Int
  mode : Mode
deriving DecidableEq, Repr

namespace Signs

variable (signs : Signs α)

/-- The place behind one more element. -/
def next (place : Place) (c : α) : Place :=
  match place.mode with
  | .plain =>
    if signs.quotes c then { place with mode := .quoted }
    else if signs.opens c then { place with depth := place.depth + 1 }
    else if signs.closes c then { place with depth := place.depth - 1 }
    else place
  | .quoted =>
    if signs.quotes c then { place with mode := .plain }
    else if signs.escapes c then { place with mode := .escaped }
    else place
  | .escaped => { place with mode := .quoted }

/-- The place behind a text that starts outside quotes. -/
def scan (depth : Int) (text : List α) : Place := text.foldl signs.next ⟨depth, .plain⟩

/-- No sign but, inside quotes, an escape. -/
def IsNeutral (c : α) : Prop :=
  signs.quotes c = false ∧ signs.opens c = false ∧ signs.closes c = false

/-- What stands between two quotes. -/
inductive Inside : List α → Prop
  | nil : Inside []
  | plain {c : α} {rest : List α} : signs.quotes c = false → signs.escapes c = false →
      Inside rest → Inside (c :: rest)
  | escape {c e : α} {rest : List α} : signs.quotes c = false → signs.escapes c = true →
      Inside rest → Inside (c :: e :: rest)

structure Closed (text : List α) : Prop where
  ends : ∀ depth, signs.scan depth text = ⟨depth, .plain⟩
  above : ∀ depth front, front <+: text → depth ≤ (signs.scan depth front).depth

variable {signs}

theorem scan_append {depth : Int} {text : List α} (h : signs.scan depth text = ⟨depth, .plain⟩)
    (more : List α) : signs.scan depth (text ++ more) = signs.scan depth more := by
  rw [scan, List.foldl_append]
  rw [scan] at h
  rw [h]
  rfl

theorem scan_cons_neutral (depth : Int) {c : α} (hc : signs.IsNeutral c) (text : List α) :
    signs.scan depth (c :: text) = signs.scan depth text := by
  simp [scan, next, hc.1, hc.2.1, hc.2.2]

theorem scan_cons_opens (depth : Int) {o : α} (hquote : signs.quotes o = false)
    (hopen : signs.opens o = true) (text : List α) :
    signs.scan depth (o :: text) = signs.scan (depth + 1) text := by
  simp [scan, next, hquote, hopen]

/-! ## Closed texts -/

theorem Closed.nil : signs.Closed [] := by
  constructor
  · exact fun depth => rfl
  · intro depth front hfront
    rw [List.prefix_nil.mp hfront]
    exact le_refl depth

theorem Closed.append {text more : List α} (h : signs.Closed text) (hmore : signs.Closed more) :
    signs.Closed (text ++ more) := by
  constructor
  · intro depth
    rw [scan_append (h.ends depth)]
    exact hmore.ends depth
  · intro depth front hfront
    rcases List.prefix_or_prefix_of_prefix hfront (List.prefix_append text more) with hin | ⟨rest, rfl⟩
    · exact h.above depth front hin
    · rw [scan_append (h.ends depth)]
      exact hmore.above depth rest ((List.prefix_append_right_inj text).mp hfront)

theorem Closed.cons_neutral {c : α} (hc : signs.IsNeutral c) {text : List α} (h : signs.Closed text) :
    signs.Closed (c :: text) := by
  constructor
  · intro depth
    rw [scan_cons_neutral depth hc]
    exact h.ends depth
  · intro depth front hfront
    rcases List.prefix_cons_iff.mp hfront with rfl | ⟨rest, rfl, hrest⟩
    · exact le_refl depth
    · rw [scan_cons_neutral depth hc]
      exact h.above depth rest hrest

theorem Closed.neutral {text : List α} (h : ∀ c ∈ text, signs.IsNeutral c) : signs.Closed text := by
  induction text with
  | nil => exact .nil
  | cons c text ih =>
    exact .cons_neutral (h c List.mem_cons_self) (ih fun d hd => h d (List.mem_cons_of_mem c hd))

/-- The depth stays between quotes. -/
theorem Inside.scan {inner : List α} (h : signs.Inside inner) (depth : Int) :
    inner.foldl signs.next ⟨depth, .quoted⟩ = ⟨depth, .quoted⟩ ∧
      ∀ front, front <+: inner → (front.foldl signs.next ⟨depth, .quoted⟩).depth = depth := by
  induction h with
  | nil => exact ⟨rfl, fun front hfront => by rw [List.prefix_nil.mp hfront]; rfl⟩
  | @plain c rest hquote hescape _ ih =>
    have hstep : signs.next ⟨depth, .quoted⟩ c = ⟨depth, .quoted⟩ := by simp [next, hquote, hescape]
    refine ⟨by rw [List.foldl_cons, hstep, ih.1], fun front hfront => ?_⟩
    rcases List.prefix_cons_iff.mp hfront with rfl | ⟨more, rfl, hmore⟩
    · rfl
    · rw [List.foldl_cons, hstep]
      exact ih.2 more hmore
  | @escape c e rest hquote hescape _ ih =>
    have hstep : signs.next ⟨depth, .quoted⟩ c = ⟨depth, .escaped⟩ := by simp [next, hquote, hescape]
    have hstep' : signs.next ⟨depth, .escaped⟩ e = ⟨depth, .quoted⟩ := rfl
    refine ⟨by rw [List.foldl_cons, List.foldl_cons, hstep, hstep', ih.1], fun front hfront => ?_⟩
    rcases List.prefix_cons_iff.mp hfront with rfl | ⟨more, rfl, hmore⟩
    · rfl
    · rw [List.foldl_cons, hstep]
      rcases List.prefix_cons_iff.mp hmore with rfl | ⟨tail, rfl, htail⟩
      · rfl
      · rw [List.foldl_cons, hstep']
        exact ih.2 tail htail

theorem Closed.quoted {inner : List α} (h : signs.Inside inner) {q : α} (hq : signs.quotes q = true) :
    signs.Closed (q :: inner ++ [q]) := by
  have hfirst : ∀ depth, signs.next ⟨depth, .plain⟩ q = ⟨depth, .quoted⟩ := by simp [next, hq]
  have hlast : ∀ depth, signs.next ⟨depth, .quoted⟩ q = ⟨depth, .plain⟩ := by simp [next, hq]
  have hends : ∀ depth, signs.scan depth (q :: inner ++ [q]) = ⟨depth, .plain⟩ := by
    intro depth
    rw [Signs.scan, List.cons_append, List.foldl_cons, hfirst, List.foldl_append, (h.scan depth).1]
    exact hlast depth
  refine ⟨hends, fun depth front hfront => ?_⟩
  rcases List.prefix_concat_iff.mp hfront with rfl | hin
  · rw [hends]
  · rcases List.prefix_cons_iff.mp hin with rfl | ⟨rest, rfl, hrest⟩
    · exact le_refl depth
    · rw [Signs.scan, List.foldl_cons, hfirst, (h.scan depth).2 rest hrest]

section Brackets

variable {inner : List α} (h : signs.Closed inner) {o : α} (hquote : signs.quotes o = false)
  (hopen : signs.opens o = true)
include h hquote hopen

theorem Closed.bracket {c : α} (hquote' : signs.quotes c = false) (hopen' : signs.opens c = false)
    (hclose : signs.closes c = true) : signs.Closed (o :: inner ++ [c]) := by
  have hends : ∀ depth, signs.scan depth (o :: inner ++ [c]) = ⟨depth, .plain⟩ := by
    intro depth
    rw [List.cons_append, scan_cons_opens depth hquote hopen, scan_append (h.ends _)]
    simp [scan, next, hquote', hopen', hclose]
  refine ⟨hends, fun depth front hfront => ?_⟩
  rcases List.prefix_concat_iff.mp hfront with rfl | hin
  · rw [hends]
  · rcases List.prefix_cons_iff.mp hin with rfl | ⟨rest, rfl, hrest⟩
    · exact le_refl depth
    · rw [scan_cons_opens depth hquote hopen]
      have hdeep := h.above (depth + 1) rest hrest
      omega

/-- Before its last bracket a text in brackets is open. -/
theorem Closed.not_closed_of_prefix {front : List α} (hfront : front <+: inner) :
    ¬ signs.Closed (o :: front) := by
  intro hclosed
  have hends := hclosed.ends 0
  rw [scan_cons_opens 0 hquote hopen] at hends
  have hdeep := h.above (0 + 1) front hfront
  rw [hends] at hdeep
  exact absurd hdeep (by decide)

end Brackets

end Signs

end DynamicPartitions.Lib.Nesting
