/-!
# Sinks

A place that text is written to. Any write or flush may be refused, and a write also in the middle:
the start of it is then in the sink and the rest of it is lost.
-/

namespace Lox

/-- Why a write was refused, and how many of its characters had been taken before. -/
structure Refusal where
  reason : String
  taken : Nat := 0

structure Sink where
  /-- How the write after `n` earlier ones is refused, if it is. -/
  refusesWrite : Nat → Option Refusal := fun _ => none
  /-- The reason for which the flush after `n` earlier ones is refused, if it is. -/
  refusesFlush : Nat → Option String := fun _ => none
  writes : Nat := 0
  flushes : Nat := 0
  /-- What has been written and not been refused. -/
  text : String := ""

/-- What is left in a sink of a write that it refused. The last character is never taken, or the write
would have come to its end. -/
def Refusal.kept (refusal : Refusal) (s : String) : String :=
  String.ofList (s.toList.dropLast.take refusal.taken)

namespace Sink

/-- Writes, or says why not. -/
def write (sink : Sink) (s : String) : Option String × Sink :=
  match sink.refusesWrite sink.writes with
  | some refusal =>
    (some refusal.reason, { sink with writes := sink.writes + 1, text := sink.text ++ refusal.kept s })
  | none => (none, { sink with writes := sink.writes + 1, text := sink.text ++ s })

def flush (sink : Sink) : Option String × Sink :=
  (sink.refusesFlush sink.flushes, { sink with flushes := sink.flushes + 1 })

/-- The text written so far, which is then forgotten. -/
def drain (sink : Sink) : String × Sink := (sink.text, { sink with text := "" })

@[simp] theorem write_writes (sink : Sink) (s : String) :
    (sink.write s).2.writes = sink.writes + 1 := by
  unfold write; split <;> rfl

/-- A write leaves a first part of its text in the sink, and the whole of a text exactly if it is not
refused. -/
theorem write_text (sink : Sink) {s : String} (hs : s ≠ "") :
    ∃ kept, kept.toList <+: s.toList ∧ (sink.write s).2.text = sink.text ++ kept ∧
      ((sink.write s).1 = none ↔ kept = s) := by
  unfold write
  cases sink.refusesWrite sink.writes with
  | none => exact ⟨s, List.prefix_rfl, rfl, iff_of_true rfl rfl⟩
  | some refusal =>
    have hlt : (refusal.kept s).toList.length < s.toList.length := by
      have hpos : 0 < s.toList.length := List.length_pos_iff.2 fun h => hs (String.toList_eq_nil_iff.1 h)
      rw [Refusal.kept, String.toList_ofList, List.length_take, List.length_dropLast]
      omega
    refine ⟨refusal.kept s, ?_, rfl, iff_of_false nofun fun h => ?_⟩
    · rw [Refusal.kept, String.toList_ofList]
      exact (List.take_prefix _ _).trans (List.dropLast_prefix _)
    · rw [h] at hlt
      exact Nat.lt_irrefl _ hlt

@[simp] theorem flush_text (sink : Sink) : sink.flush.2.text = sink.text := rfl

end Sink
end Lox
