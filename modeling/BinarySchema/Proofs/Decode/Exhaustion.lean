import BinarySchema.Proofs.Decode.Places
import BinarySchema.Proofs.Decode.Static

/-!
# Decodes that read to the end

A loop comes to a result only where its condition says that it ends (`loop_leaves`), whatever its body
does. If the condition probes for the end of the input, and the loop is the last node of a root, nothing is
left behind the decode: it has reached the end, and no read goes beyond.
-/

namespace BinarySchema

/-- The loops that end as soon as the input does: `until (@eof)` and `while (@pos < @size)`. -/
inductive BlockHead.StopsAtEnd : BlockHead → Prop
  | untilEnd {probe place pos : Position} :
      StopsAtEnd ⟨⟨true, true⟩, ⟨[⟨.probe, "@eof", probe⟩], place⟩, pos⟩
  | whileInside {head : BlockHead} (h : head.RunsToEnd) : StopsAtEnd head

theorem BlockHead.StopsAtEnd.repeats {head : BlockHead} (h : head.StopsAtEnd) :
    head.control.repeats = true := by
  cases h with
  | untilEnd => rfl
  | whileInside h => rw [h.control]

namespace Decoder

variable {context : DecodeContext} {enter : List Node → Decoder Scope} {head : BlockHead}
  {r s : Reading}

theorem entered_stopsAtEnd (h : head.StopsAtEnd) (scopes : List Scope) :
    entered context head scopes r = .ok (decide (r.source.position < r.source.size)) r := by
  cases h with
  | whileInside h => exact entered_runsToEnd h scopes rfl
  | @untilEnd probe place pos =>
    have hvalue : Expression.evaluate ⟨[⟨.probe, "@eof", probe⟩], place⟩
        ⟨r.source.position, r.source.size, scopes, context.types⟩
          = .ok (.bool (decide ((r.source.size : Int) ≤ r.source.position))) := rfl
    rw [entered_of_bool hvalue]
    simp

theorem loop_leaves {body : List Scope → Decoder Scope} {outer : List Scope} {steps iteration : Nat}
    {visible : List Scope} {scope result : Scope}
    (h : loop context head body outer steps iteration visible scope r = .ok result s) :
    ∃ scopes, entered context head scopes s = .ok false s := by
  induction steps generalizing iteration visible scope r with
  | zero =>
    unfold Decoder.loop at h
    rw [position_bind] at h
    simp at h
  | succ steps ih =>
    cases loop_ok h with
    | done leaves => exact ⟨_, leaves⟩
    | again _ _ _ rest => exact ih rest

theorem nodes_stopsAtEnd (hhead : head.StopsAtEnd) {front body : List Node} {outer : List Scope}
    {scope result : Scope}
    (h : nodes context enter (front ++ [.block head body]) outer scope r = .ok result s) :
    s.source.size ≤ s.source.position := by
  rw [nodes_append] at h
  obtain ⟨between, t, -, hlast⟩ := bind_ok_iff.1 h
  obtain ⟨added, u, hnode, hend⟩ := bind_ok_iff.1 hlast
  obtain ⟨-, rfl⟩ := pure_ok_iff.1 hend
  have hloop := hhead.repeats
  cases node_ok hnode with
  | repeated _ run =>
    obtain ⟨scopes, hleaves⟩ := loop_leaves run
    rw [entered_stopsAtEnd hhead] at hleaves
    exact Nat.not_lt.1 (of_decide_eq_false (EStateM.Result.ok.inj hleaves).1)
  | skipped hrepeats | spliced hrepeats =>
    rw [hloop] at hrepeats
    cases hrepeats

end Decoder

/-- A root whose last node is a loop up to the end of the input takes all that was unread, if it comes to
a result: as many bytes as there are from the start to the end. -/
theorem decode_to_end {schema : Schema} {front body : List Node} {head : BlockHead}
    (hroot : schema.root = some (front ++ [.block head body])) (hhead : head.StopsAtEnd)
    {options : Options} {bytes : List UInt8} {start : Nat} {chunk : Option Nat}
    (hstart : start ≤ bytes.length) {decoded : Decoded} {reading : Reading}
    (h : schema.decode options (.ofBytes bytes start chunk) = .ok decoded reading) :
    decoded.consumed = bytes.length - start := by
  obtain ⟨hconsumes, hposition⟩ := Schema.decode_consumes h
  obtain ⟨hrun, -, -⟩ := (Schema.decode_ok_iff hroot).1 h
  have hend := Decoder.nodes_stopsAtEnd hhead hrun
  have hwithin := hconsumes.position_le
  have hsize : reading.source.size = bytes.length := hconsumes.size
  change reading.source.position = start + decoded.consumed at hposition
  change reading.source.position ≤ max start bytes.length at hwithin
  omega

/-- Behind a number, titles with a counted text each, up to the end of the input. -/
def Schema.titles : Schema where
  types := { frozen := true }
  root := some [
    .field { name := "version", type := .primitive .byte, pos := ⟨1, 10⟩ },
    .block ⟨⟨true, true⟩, ⟨[⟨.probe, "@eof", ⟨2, 10⟩⟩], ⟨2, 10⟩⟩, ⟨2, 3⟩⟩ [
      .field { name := "title", type := .primitive .string, pos := ⟨3, 5⟩ },
      .field { name := "count", type := .primitive .byte, pos := ⟨4, 5⟩ },
      .field { name := "text", type := .primitive .char, pos := ⟨5, 5⟩
               length := some ⟨[⟨.name, "count", ⟨5, 17⟩⟩], ⟨5, 17⟩⟩ }]]

theorem decode_to_end_titles :
    ∃ decoded reading,
      Schema.titles.decode {} (.ofBytes [0, 1, 65, 66, 0, 1, 97, 0, 2, 98, 99] 1)
          = .ok decoded reading ∧
        decoded.consumed = 10 := by
  have hcount : Schema.titles.consumed? {} (.ofBytes [0, 1, 65, 66, 0, 1, 97, 0, 2, 98, 99] 1)
      = some 10 := by
    decide +kernel
  obtain ⟨decoded, reading, hrun, -⟩ := Schema.decode_of_consumed? hcount
  have hroot : Schema.titles.root = some ([_] ++ [.block _ _]) := rfl
  exact ⟨decoded, reading, hrun, decode_to_end hroot .untilEnd (by decide) hrun⟩

end BinarySchema
