/-
Buffered preimages.

Whatever happens to nodes, pins and references, the preimages and what is charged
for them stay as they are (`SamePreimages`). Their counter is the sum over them,
cut off at the largest counter, with no assumption on how many there are.
-/
import MerkleBuffer.Proofs.Buffer.Sizes

namespace MerkleBuffer.Buffer

/-- `b'` buffers the preimages of `b`, and is charged the same for them. -/
structure SamePreimages (b b' : Buffer) : Prop where
  preimages : b'.preimages = b.preimages
  counter : b'.preimagesSize = b.preimagesSize

/-- What preimages are charged is the sum over them, or the largest counter. -/
def PreimagesCounted (b : Buffer) : Prop := b.preimagesSize = ByteSize.ofNat b.preimageBytes

variable {b b' b'' : Buffer} {h : Hash}

namespace SamePreimages

theorem refl (b : Buffer) : SamePreimages b b := ⟨rfl, rfl⟩

theorem trans (hs : SamePreimages b b') (hs' : SamePreimages b' b'') : SamePreimages b b'' :=
  ⟨hs'.preimages.trans hs.preimages, hs'.counter.trans hs.counter⟩

theorem counted (hs : SamePreimages b b') (hc : b.PreimagesCounted) : b'.PreimagesCounted := by
  rw [PreimagesCounted, hs.counter, hc, preimageBytes, preimageBytes, hs.preimages]

theorem insert (b : Buffer) (h : Hash) (size : Nat) (node : Node) : SamePreimages b (b.insert h size node) := by
  unfold Buffer.insert
  split
  · exact refl b
  · exact ⟨rfl, rfl⟩

theorem reference (b : Buffer) (child parent : Hash) : SamePreimages b (b.reference child parent) := by
  unfold Buffer.reference Buffer.pin Buffer.addEdge
  split
  · exact refl b
  split
  · split
    · exact refl b
    · exact ⟨rfl, rfl⟩
  split
  · exact refl b
  · dsimp only
    split
    · exact refl b
    · exact ⟨rfl, rfl⟩

theorem remove (b : Buffer) (h : Hash) (e : Staged) : SamePreimages b (b.remove h e) :=
  ⟨preimages_remove b h e, (b.sizes_remove h e).2.2⟩

theorem discards (b : Buffer) (hs : List Hash) : SamePreimages b (b.discards hs) := by
  induction hs generalizing b with
  | nil => exact refl b
  | cons h rest ih =>
    have hfirst : SamePreimages b (b.discard h) := ⟨preimages_discard b h, (b.sizes_discard h).2.2⟩
    exact hfirst.trans (ih (b.discard h))

theorem release (b : Buffer) (pending : List Hash) : SamePreimages b (b.release pending) := by
  fun_induction Buffer.release b pending with
  | case1 b => exact refl b
  | case2 b h rest _ ih => exact ih
  | case3 b h rest e _ _ ih =>
    have hclamped : SamePreimages b b.countClamped := ⟨rfl, rfl⟩
    exact (hclamped.trans (remove b.countClamped h e)).trans ih
  | case4 b h rest e _ _ _ ih => exact (remove b h e).trans ih
  | case5 b h rest e _ _ _ ih => exact ⟨ih.preimages, ih.counter⟩

theorem dereference (b : Buffer) (root : Hash) : SamePreimages b (b.dereference root) := by
  have hunpin : SamePreimages b (b.unpin root) := by
    unfold Buffer.unpin
    split
    · exact ⟨(release ..).preimages, (release ..).counter⟩
    · exact release b [root]
  exact ⟨hunpin.preimages, hunpin.counter⟩

theorem discardFlushed (b : Buffer) (nodes : List (Hash × Staged)) : SamePreimages b (b.discardFlushed nodes) := by
  have hfold : nodes.foldl (fun b node => b.discard node.1) b = b.discards (nodes.map (·.1)) := by
    rw [Buffer.discards, List.foldl_map]
  have hdrop := discards b (nodes.map (·.1))
  rw [← hfold] at hdrop
  exact ⟨hdrop.preimages, hdrop.counter⟩

end SamePreimages

theorem PreimagesCounted.empty : empty.PreimagesCounted := rfl

theorem PreimagesCounted.of_cleared (hpreimages : b.preimages = []) (hcounter : b.preimagesSize = ByteSize.zero) :
    b.PreimagesCounted := by
  rw [PreimagesCounted, hcounter, preimageBytes, hpreimages]
  rfl

theorem PreimagesCounted.insertPreimage (hc : b.PreimagesCounted) (h : Hash) (preimage : Bytes) :
    (b.insertPreimage h preimage).PreimagesCounted := by
  unfold Buffer.insertPreimage
  split
  · exact hc
  · rw [PreimagesCounted, hc]
    have hbytes : preimageBytes { b with preimages := b.preimages ++ [(h, preimage)] } =
        b.preimageBytes + (Hash.size + preimage.length) := by
      simp [preimageBytes]
    refine ByteSize.ext ?_
    show (ByteSize.ofNat b.preimageBytes + ByteSize.ofNat (Hash.size + preimage.length)).bytes =
      (ByteSize.ofNat (preimageBytes { b with preimages := b.preimages ++ [(h, preimage)] })).bytes
    rw [hbytes, ByteSize.bytes_add, ByteSize.bytes_ofNat, ByteSize.bytes_ofNat, ByteSize.bytes_ofNat]
    omega

/-- A preimage comes last, unless its hash has one. -/
theorem preimages_insertPreimage (b : Buffer) (h : Hash) (preimage : Bytes) :
    (b.insertPreimage h preimage).preimages =
      if h ∈ b.preimages.map (·.1) then b.preimages else b.preimages ++ [(h, preimage)] := by
  have hany : b.preimages.any (·.1 == h) = true ↔ h ∈ b.preimages.map (·.1) := by simp
  rw [Buffer.insertPreimage]
  by_cases hh : h ∈ b.preimages.map (·.1)
  · rw [if_pos (hany.2 hh), if_pos hh]
  · rw [if_neg (mt hany.1 hh), if_neg hh]

theorem isSome_preimage? (hh : h ∈ b.preimages.map (·.1)) : (b.preimage? h).isSome = true := by
  obtain ⟨x, hx, rfl⟩ := List.mem_map.1 hh
  rw [preimage?, Option.isSome_map, List.find?_isSome]
  exact ⟨x, hx, beq_self_eq_true x.1⟩

theorem mem_of_preimage? {preimage : Bytes} (hf : b.preimage? h = some preimage) : (h, preimage) ∈ b.preimages := by
  obtain ⟨x, hx, rfl⟩ := Option.map_eq_some_iff.1 hf
  have heq : x.1 = h := by simpa using List.find?_some hx
  exact heq ▸ List.mem_of_find?_eq_some hx

end MerkleBuffer.Buffer
