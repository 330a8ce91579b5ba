import MoldMacho.Lib.Bytes

/-!
# Runs of edits

Steps that each change a span of a buffer, or fail, and may report. A step
whose span no other step of the run meets reads what the run was given and
leaves what the run returns.
-/

set_option autoImplicit false

namespace MoldMacho.Edits

open Bytes

structure Span where
  off : ℕ
  len : ℕ

namespace Span

def Apart (s t : Span) : Prop := s.off+s.len ≤ t.off ∨ t.off+t.len ≤ s.off

theorem Apart.symm {s t : Span} (h : s.Apart t) : t.Apart s := Or.symm h

def bytes (s : Span) (buf : List UInt8) : Option (List UInt8) := bytesAt buf s.off s.len

end Span

variable {R E : Type}

def run (step : R → List UInt8 → Option (List UInt8 × List E)) :
    List R → List UInt8 → Option (List UInt8 × List E)
  | [], buf => some (buf,[])
  | r::rs, buf => (step r buf).bind fun (out,errs) =>
      (run step rs out).map fun (out,more) => (out,errs ++ more)

/-- A step changes its span at most. -/
def Framed (step : R → List UInt8 → Option (List UInt8 × List E)) (span : R → Span) : Prop :=
  ∀ r buf out errs, step r buf = some (out,errs) →
    out.length = buf.length ∧ ∀ s, (span r).Apart s → s.bytes out = s.bytes buf

variable {step : R → List UInt8 → Option (List UInt8 × List E)} {span : R → Span}

theorem run_cons {r : R} {rs : List R} {buf out : List UInt8} {errs : List E}
    (h : run step (r::rs) buf = some (out,errs)) :
    ∃ mid first rest, step r buf = some (mid,first) ∧ run step rs mid = some (out,rest) ∧
      errs = first ++ rest := by
  rw [run, Option.bind_eq_some_iff] at h
  obtain ⟨⟨mid,first⟩,hstep,h⟩ := h
  rw [Option.map_eq_some_iff] at h
  obtain ⟨⟨out',rest⟩,hrun,h⟩ := h
  cases h
  exact ⟨mid,first,rest,hstep,hrun,rfl⟩

theorem run_frame (hframe : Framed step span) {rs : List R} {buf out : List UInt8} {errs : List E}
    (h : run step rs buf = some (out,errs)) :
    out.length = buf.length ∧
      ∀ s, (∀ r ∈ rs, (span r).Apart s) → s.bytes out = s.bytes buf := by
  induction rs generalizing buf errs with
  | nil =>
    cases h
    exact ⟨rfl,fun _ _ => rfl⟩
  | cons r rs ih =>
    obtain ⟨mid,first,rest,hstep,hrun,-⟩ := run_cons h
    obtain ⟨hlen,hmid⟩ := hframe r buf mid first hstep
    obtain ⟨hlen',hout⟩ := ih hrun
    refine ⟨hlen'.trans hlen,fun s hs => ?_⟩
    rw [hout s fun r' hr' => hs r' (List.mem_cons_of_mem _ hr'), hmid s (hs r List.mem_cons_self)]

/-- The step of a run whose span every other step keeps off. -/
theorem run_step (hframe : Framed step span) {rs : List R} {buf out : List UInt8}
    (h : run step rs buf = some (out,[])) {k : ℕ} {r : R} (hk : rs[k]? = some r)
    (hapart : ∀ j r', j ≠ k → rs[j]? = some r' → (span r').Apart (span r)) :
    ∃ before after, step r before = some (after,[]) ∧
      (span r).bytes before = (span r).bytes buf ∧ (span r).bytes after = (span r).bytes out := by
  induction rs generalizing buf k with
  | nil => simp at hk
  | cons r' rs ih =>
    obtain ⟨mid,first,rest,hstep,hrun,herrs⟩ := run_cons h
    obtain ⟨rfl,rfl⟩ := List.append_eq_nil_iff.mp herrs.symm
    cases k with
    | zero =>
      obtain rfl : r' = r := by simpa using hk
      refine ⟨buf,mid,hstep,rfl,?_⟩
      refine ((run_frame hframe hrun).2 _ fun q hq => ?_).symm
      obtain ⟨j,hj⟩ := List.mem_iff_getElem?.mp hq
      exact hapart (j+1) q (by omega) (by simpa using hj)
    | succ k =>
      obtain ⟨before,after,hone,hbefore,hafter⟩ := ih hrun (by simpa using hk)
        fun j q hj hq => hapart (j+1) q (by omega) (by simpa using hq)
      refine ⟨before,after,hone,?_,hafter⟩
      rw [hbefore]
      exact (hframe r' buf mid [] hstep).2 _ (hapart 0 r' (by omega) (by simp))

end MoldMacho.Edits
