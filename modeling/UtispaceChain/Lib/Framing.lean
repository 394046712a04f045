import Mathlib.Data.List.Basic
import Mathlib.Tactic.Common

/-! Messages in a stream whose pieces are decoded as they come in. -/

namespace UtispaceChain.Lib

inductive Verdict (F M : Type)
  | wait
  | fault (f : F)
  | accept (size : Nat) (message : M)

/-- A decoder that does not change its verdict when more items come in. -/
structure Framing (α F M : Type) where
  judge : List α → Verdict F M
  consumes : ∀ {buffer : List α} {size : Nat} {message : M}, judge buffer = .accept size message →
    0 < size ∧ size ≤ buffer.length
  accepts_more : ∀ {buffer : List α} {size : Nat} {message : M}, judge buffer =
    .accept size message →
    ∀ more, judge (buffer ++ more) = .accept size message
  faults_more : ∀ {buffer : List α} {f : F}, judge buffer = .fault f →
    ∀ more, judge (buffer ++ more) = .fault f

namespace Framing

variable {α F M : Type} {d : Framing α F M} {buffer more rest : List α} {messages : List M}
    {f : Option F}

/-- The decoder is asked again until it waits or faults: what it has read, what is left, and the
fault. -/
inductive Reads (d : Framing α F M) : List α → List M → List α → Option F → Prop
  | wait {buffer : List α} : d.judge buffer = .wait → Reads d buffer [] buffer none
  | fault {buffer : List α} {f : F} : d.judge buffer = .fault f → Reads d buffer [] buffer (some f)
  | accept {buffer : List α} {size : Nat} {message : M} {messages : List M} {rest : List α}
      {f : Option F} :
      d.judge buffer = .accept size message → Reads d (buffer.drop size) messages rest f →
      Reads d buffer (message :: messages) rest f

theorem exists_reads (d : Framing α F M) (buffer : List α) :
    ∃ messages rest f, Reads d buffer messages rest f := by
  induction size : buffer.length using Nat.strongRecOn generalizing buffer with
  | ind n ih =>
      cases verdict : d.judge buffer with
      | wait => exact ⟨_, _, _, .wait verdict⟩
      | fault f => exact ⟨_, _, _, .fault verdict⟩
      | accept size message =>
          rcases d.consumes verdict with ⟨positive, within⟩
          rcases ih (buffer.drop size).length (by rw [List.length_drop]; omega)
            (buffer.drop size) rfl with ⟨_, _, _, reads⟩
          exact ⟨_, _, _, .accept verdict reads⟩

theorem Reads.unique (reads : Reads d buffer messages rest f) {messages' : List M} {rest' : List α}
    {f' : Option F} (reads' : Reads d buffer messages' rest' f') : messages = messages' ∧
    rest = rest' ∧ f = f' := by
  induction reads generalizing messages' with
  | wait verdict =>
      cases reads' with
      | wait _ => exact ⟨rfl, rfl, rfl⟩
      | fault other => rw [verdict] at other; cases other
      | accept other _ => rw [verdict] at other; cases other
  | fault verdict =>
      cases reads' with
      | wait other => rw [verdict] at other; cases other
      | fault other => rw [verdict] at other; cases other; exact ⟨rfl, rfl, rfl⟩
      | accept other _ => rw [verdict] at other; cases other
  | accept verdict _ ih =>
      cases reads' with
      | wait other => rw [verdict] at other; cases other
      | fault other => rw [verdict] at other; cases other
      | accept other later =>
          rw [verdict] at other
          cases other
          rcases ih later with ⟨rfl, rfl, rfl⟩
          exact ⟨rfl, rfl, rfl⟩

theorem Reads.judge_rest (reads : Reads d buffer messages rest f) :
    d.judge rest = f.elim .wait .fault := by
  induction reads with
  | wait verdict => exact verdict
  | fault verdict => exact verdict
  | accept _ _ ih => exact ih

theorem Reads.append (reads : Reads d buffer messages rest none) {messages' : List M}
    {rest' : List α} (later : Reads d (rest ++ more) messages' rest' f) :
    Reads d (buffer ++ more) (messages ++ messages') rest' f := by
  generalize ended : (none : Option F) = end_ at reads
  induction reads with
  | wait _ => exact later
  | fault _ => cases ended
  | accept verdict _ ih =>
      refine .accept (d.accepts_more verdict more) ?_
      rw [List.drop_append_of_le_length (d.consumes verdict).2]
      exact ih later ended

theorem Reads.append_fault {fault : F} (reads : Reads d buffer messages rest (some fault))
    (more : List α) :
    Reads d (buffer ++ more) messages (rest ++ more) (some fault) := by
  generalize ended : some fault = end_ at reads ⊢
  induction reads with
  | wait _ => cases ended
  | fault verdict => exact .fault (d.faults_more verdict more)
  | accept verdict _ ih =>
      refine .accept (d.accepts_more verdict more) ?_
      rw [List.drop_append_of_le_length (d.consumes verdict).2]
      exact ih ended

inductive Left (d : Framing α F M) (stream : List α) : List α → Prop
  | all : Left d stream stream
  | next {rest : List α} {size : Nat} {message : M} : Left d stream rest →
      d.judge rest = .accept size message → Left d stream (rest.drop size)

theorem Reads.left (reads : Reads d buffer messages rest f) : Left d buffer rest := by
  have onward : ∀ {stream : List α}, Left d stream buffer → Left d stream rest := by
    intro stream before
    induction reads with
    | wait _ => exact before
    | fault _ => exact before
    | accept verdict _ ih => exact ih (before.next verdict)
  exact onward .all

theorem Left.reads {stream : List α} (left : Left d stream buffer)
    (reads : Reads d buffer messages rest f) :
    ∃ before, Reads d stream (before ++ messages) rest f := by
  induction left generalizing messages with
  | all => exact ⟨[], reads⟩
  | next _ verdict ih =>
      rcases ih (.accept verdict reads) with ⟨before, whole⟩
      exact ⟨before ++ [_], by simpa using whole⟩

theorem reads_pieces (d : Framing α F M) (pieces : List (List α × M))
    (accepted : ∀ piece ∈ pieces, d.judge piece.1 = .accept piece.1.length piece.2)
    (idle : d.judge [] = .wait) :
    Reads d (pieces.map Prod.fst).flatten (pieces.map Prod.snd) [] none := by
  induction pieces with
  | nil => exact .wait idle
  | cons piece pieces ih =>
      rcases List.forall_mem_cons.mp accepted with ⟨first, later⟩
      rw [List.map_cons, List.flatten_cons, List.map_cons]
      refine .accept (d.accepts_more first _) ?_
      rw [List.drop_left]
      exact ih later

end Framing

end UtispaceChain.Lib
