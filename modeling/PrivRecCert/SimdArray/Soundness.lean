import PrivRecCert.SimdArray.History

/-! The sizes of the arrays of a history. They agree in every array as long as no call shrinks an array
below its last byte, and then arrays of equal bit size have blocks of equal length, which is what the
chunk loops rely on. -/
namespace PrivRecCert.SimdArray.BitArray

variable {R : Type} [RngCore R] {chacha : ChaCha8Rng.Keystream}

/-- All arrays have consistent sizes, and no operation on arrays of equal bit size leaves a block. -/
structure Sound (st : List BitArray) : Prop where
  wf : ∀ a ∈ st, a.WF
  buf_length : ∀ a ∈ st, ∀ b ∈ st, a.bitSize = b.bitSize → a.data.buf.length = b.data.buf.length
  inplaceXor : ∀ a ∈ st, ∀ b ∈ st, a.bitSize = b.bitSize → (a.inplaceXor b).isSome
  inplaceAnd : ∀ a ∈ st, ∀ b ∈ st, a.bitSize = b.bitSize → (a.inplaceAnd b).isSome
  mutAnd : ∀ a ∈ st, ∀ b ∈ st, ∀ c ∈ st, a.bitSize = b.bitSize → a.bitSize = c.bitSize → (a.mutAnd b c).isSome
  innerProd : ∀ a ∈ st, ∀ b ∈ st, a.bitSize = b.bitSize → (innerProd a b).isSome
  eq : ∀ a ∈ st, ∀ b ∈ st, a.bitSize = b.bitSize → (BitArray.eq a b).isSome

theorem Represents.of_size {a : BitArray} {s : ℕ} (ha : a.WF) (hs : a.bitSize = s) : a.Represents s a.bit :=
  hs ▸ .of_wf ha

theorem Sound.of_wf {st : List BitArray} (h : ∀ a ∈ st, a.WF) : Sound st := by
  refine ⟨h, fun a ha b hb hab => ?_, fun a ha b hb hab => ?_, fun a ha b hb hab => ?_,
    fun a ha b hb c hc hab hac => ?_, fun a ha b hb hab => ?_, fun a ha b hb hab => ?_⟩
  · have hal := (Represents.of_wf (h a ha)).buf_length
    have hbl := (Represents.of_size (h b hb) hab.symm).buf_length
    omega
  · obtain ⟨r, hr, -⟩ := inplaceXor_eq (.of_wf (h a ha)) (.of_size (h b hb) hab.symm)
    exact hr ▸ rfl
  · obtain ⟨r, hr, -⟩ := inplaceAnd_eq (.of_wf (h a ha)) (.of_size (h b hb) hab.symm)
    exact hr ▸ rfl
  · obtain ⟨r, hr, -⟩ := mutAnd_eq (.of_wf (h a ha)) (.of_size (h b hb) hab.symm) (.of_size (h c hc) hac.symm)
    exact hr ▸ rfl
  · exact innerProd_eq (.of_wf (h a ha)) (.of_size (h b hb) hab.symm) ▸ rfl
  · obtain ⟨e, he, -⟩ := eq_eq (.of_wf (h a ha)) (.of_size (h b hb) hab.symm)
    exact he ▸ rfl

/-- The call does not shrink an array below its last byte. -/
def Op.KeepsLastByte (st : List BitArray) (op : Op R) : Prop :=
  ∀ i p a, op = .shrinkToPartialLastByte i p → st[i]? = some a → p < a.bitSize → a.bitSize < p + 8 →
    divCeil p 8 = divCeil a.bitSize 8

/-- A shrunk array is well-formed exactly if no byte has become superfluous. -/
theorem shrink_wf_iff {a r : BitArray} {p : ℕ} (ha : a.WF) (h : a.shrinkToPartialLastByte p = some r) :
    r.WF ↔ (p < a.bitSize → a.bitSize < p + 8 → divCeil p 8 = divCeil a.bitSize 8) := by
  unfold shrinkToPartialLastByte at h
  split_ifs at h with h1 h2
  · obtain rfl := Option.some.inj h
    exact ⟨fun _ hlt => absurd hlt (by omega), fun _ => ha⟩
  · obtain rfl := Option.some.inj h
    rw [divCeil_eight, divCeil_eight]
    refine ⟨fun hwf _ _ => hwf.byteSize_eq.symm.trans ha.byteSize_eq, fun hk => ⟨?_, ha.len_eq⟩⟩
    exact ha.byteSize_eq.trans (hk h2.1 (by omega)).symm

theorem exec_wf {op : Op R} {st st' : List BitArray} (h : op.exec chacha st = some st') (hst : ∀ a ∈ st, a.WF)
    (hop : op.KeepsLastByte st) : ∀ r ∈ st', r.WF := by
  intro r hr
  cases exec_origin h r hr with
  | fresh hr => exact hr
  | kept a ha hsizes => exact hsizes.wf (hst a ha)
  | shrunk i p a hop' ha hr' => exact (shrink_wf_iff (hst a (List.mem_of_getElem? ha)) hr').mpr (hop i p a hop' ha)

/-- A call that shrinks an array too far leaves an array that is not well-formed. -/
theorem exec_not_wf {op : Op R} {st : List BitArray} (hst : ∀ a ∈ st, a.WF) (hop : ¬ op.KeepsLastByte st) :
    ∃ st', op.exec chacha st = some st' ∧ ∃ r ∈ st', ¬ r.WF := by
  simp only [Op.KeepsLastByte, not_forall] at hop
  obtain ⟨i, p, a, rfl, ha, hlt, hlt', hne⟩ := hop
  have hshrink : a.shrinkToPartialLastByte p = some { a with bitSize := p } := by
    rw [shrinkToPartialLastByte, if_neg (by omega), if_pos ⟨hlt, by omega⟩]
  have hi : i < st.length := (List.getElem?_eq_some_iff.mp ha).1
  refine ⟨st.set i { a with bitSize := p }, by simp [Op.exec, ha, hshrink], _, List.mem_set hi _, fun hwf => ?_⟩
  exact hne ((shrink_wf_iff (hst a (List.mem_of_getElem? ha)) hshrink).mp hwf hlt hlt')

theorem run_append (ops : List (Op R)) (op : Op R) :
    run chacha (ops ++ [op]) = (run chacha ops).bind fun st => op.exec chacha st := by
  rw [run, List.foldlM_append]
  cases hrun : ops.foldlM (Op.exec chacha) [] with
  | none => simp [run, hrun]
  | some st => simp [run, hrun]

/-- The sizes agree throughout a history exactly if no call of the history shrinks an array below its
last byte. -/
theorem run_sound_iff (ops : List (Op R)) :
    (∀ pre st, pre <+: ops → run chacha pre = some st → Sound st) ↔
      ∀ pre op st, pre ++ [op] <+: ops → run chacha pre = some st → op.KeepsLastByte st := by
  constructor
  · intro hsound pre op st hpre hrun
    by_contra hop
    have hst := hsound pre st ((List.prefix_append pre [op]).trans hpre) hrun
    obtain ⟨st', hexec, r, hr, hnot⟩ : ∃ st', op.exec chacha st = some st' ∧ ∃ r ∈ st', ¬ r.WF :=
      exec_not_wf hst.wf hop
    have hrun' : run chacha (pre ++ [op]) = some st' := by rw [run_append, hrun, Option.bind_some, hexec]
    exact hnot ((hsound _ st' hpre hrun').wf r hr)
  · intro hops pre
    induction pre using List.reverseRecOn with
    | nil =>
      intro st _ hrun
      obtain rfl := Option.some.inj hrun
      exact .of_wf (by simp)
    | append_singleton pre op ih =>
      intro st hpre hrun
      rw [run_append] at hrun
      obtain ⟨st₀, hrun₀, hexec⟩ := Option.bind_eq_some_iff.mp hrun
      have hst₀ := ih st₀ ((List.prefix_append pre [op]).trans hpre) hrun₀
      exact .of_wf (exec_wf hexec hst₀.wf (hops pre op st₀ hpre hrun₀))

/-- An array of 257 bits, shrunk by one bit, keeps 33 bytes; an operation with an array of 256 bits then
leaves the block of the latter. -/
theorem run_oversized : ∃ x y : BitArray,
    run (R := ChaCha8Rng) (fun _ _ => 0) [.new 257, .new 256, .shrinkToPartialLastByte 0 256] = some [x, y] ∧
      x.bitSize = 256 ∧ x.byteSize = 33 ∧ divCeil 256 8 = 32 ∧ y.bitSize = 256 ∧
      x.data.buf.length = 64 ∧ y.data.buf.length = 32 ∧ x.inplaceXor y = none := by
  exact ⟨_, _, rfl, rfl, rfl, rfl, rfl, rfl, rfl, rfl⟩

end PrivRecCert.SimdArray.BitArray
