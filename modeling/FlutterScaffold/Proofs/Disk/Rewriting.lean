import FlutterScaffold.Proofs.Disk.Objects
import FlutterScaffold.Proofs.Disk.Places

/-!
# Rewriting a file

New bytes for a file show at all places of the file, and nothing changes that a walk passes on its
way: a walk goes through directories and links only. So a path that could be read can be written,
and what was written is read back at the same path (`exists_writeFile_of_readFile`).
-/

namespace FlutterScaffold.Disk

namespace Host

/-- What was read from a file can be replaced, and what replaced it is read back. -/
theorem exists_writeFile_of_readFile {host : Host} (hhost : host.HasHere) {p : Path} {old : Text}
    (hne : old ≠ []) (h : host.readFile p = .ok old) (new : Text) :
    ∃ host', host.writeFile p new = .ok host' ∧ host'.readFile p = .ok new ∧
      host'.here = host.here := by
  have hstatus := (status_of_readFile h).resolve_right hne
  rw [status] at hstatus
  cases hlocate : locate host.tree host.here true p with
  | error refusal => simp [hlocate, bind, Except.bind] at hstatus
  | ok spot =>
    obtain ⟨place, entry⟩ := spot
    have hentry : entry = some (.file old) := by
      cases entry with
      | none => simp [hlocate, bind, Except.bind] at hstatus
      | some entry => simpa [hlocate, bind, Except.bind] using hstatus
    rw [hentry] at hlocate
    have hwrite : host.writeFile p new =
        .ok { host with tree := host.tree.rewrite place new } := by
      simp [writeFile, hlocate, bind, Except.bind]
    refine ⟨_, hwrite, ?_, rfl⟩
    obtain ⟨hp, hlong, hwalk⟩ := locate_iff.mp hlocate
    have hreaches := reaches_start hhost (seen p)
    have hfile := (hwalk.spec hreaches).1.symm
    have hnew : (host.tree.rewrite place new).get? place = some (.file new) := by
      obtain ⟨number, hslot⟩ := Tree.exists_slot?_of_file hfile
      rw [Tree.get?_rewrite hfile, if_pos ((Tree.sameObject_iff hslot).mpr hslot)]
    have hagain := hwalk.of_keeps ((host.tree.adds_rewrite place new).keeps) hreaches
      (by simp [hnew])
    rw [hnew] at hagain
    have hlocate' : locate (host.tree.rewrite place new) host.here true p =
        .ok ⟨place, some (.file new)⟩ := locate_iff.mpr ⟨hp, hlong, hagain⟩
    simp [readFile, status, hlocate', bind, Except.bind]

end Host

end FlutterScaffold.Disk
