import Xv6.Exec.Alloc

namespace Xv6
namespace Vm

variable {L : Layout} {vm vm' vm₀ : Vm} {role role' role₀ : Nat → Role} {d : Nat} {s : Loading}

structure StoreOk (vm : Vm) (st : Store) : Prop where
  free : st.page ∈ vm.freelist
  low : st.ph.vaddr ≤ st.va
  high : st.va + st.len ≤ st.ph.vaddr + st.ph.filesz
  noWrap : st.va + st.len ≤ 2 ^ 32

theorem readFile_full {file bs : List UInt8} {off n : Nat} (h : readFile file off n = some bs)
    (hn : bs.length = n) : off + n ≤ file.length ∨ n = 0 := by
  unfold readFile at h
  split at h
  · cases h
  · cases h
    rw [List.length_take, List.length_drop] at hn
    omega

theorem readFile_length {file bs : List UInt8} {off n : Nat} (h : readFile file off n = some bs) :
    bs.length ≤ n ∧ bs.length ≤ file.length - off ∧ (bs.length = n ∨ file.length ≤ off + bs.length) := by
  unfold readFile at h
  split at h
  · cases h
  · cases h
    rw [List.length_take, List.length_drop]
    omega

theorem readFile_none {file : List UInt8} {off n : Nat} (h : readFile file off n = none)
    (hoff : off < 2 ^ 32) (hn : n ≤ pgsize) : file.length < off ∨ 2 ^ 32 ≤ off + n := by
  unfold readFile at h
  split at h
  · rename_i hc
    refine hc.imp_right fun hw => ?_
    simp only [uint, pgsize] at hw hn
    omega
  · cases h

theorem readFile_some {file bs : List UInt8} {off n : Nat} (h : readFile file off n = some bs)
    (hn : n ≤ pgsize) : off ≤ file.length ∧ off + n < 2 ^ 32 := by
  unfold readFile at h
  split at h
  · cases h
  · rename_i hc
    simp only [uint, pgsize] at hc hn
    omega

theorem Space.page_free {q w : Nat} {perm : Perm} (h : Space L d s vm₀ vm role₀ role)
    (hf : Fresh d vm₀ role₀) (hw : w < 2 ^ 19) (hpage : vm.page d w = some ⟨q, perm⟩) :
    q ∈ vm₀.freelist := by
  unfold Vm.page TwoLevel.get at hpage
  obtain ⟨pt, hlink, hleaf⟩ := Option.bind_eq_some_iff.mp hpage
  have hpt := h.acts.exact.ok.owned.dir d _ pt h.dir hlink
  have hframe := (h.acts.exact.ok.owned.frame pt d _ _ _ hpt (by omega) hleaf).1
  dsimp only at hframe
  have hb : Belongs d (role q) := by
    rw [hframe]
    exact belongs_frame _
  have hqd : q ≠ d := by
    rintro rfl
    rw [h.dir] at hframe
    cases hframe
  refine (hf q ?_).2
  have hmoves := h.acts.moves q
  rw [Function.update_of_ne hqd] at hmoves
  rcases hmoves with heq | hmoves
  · rwa [heq] at hb
  · exact hmoves.1

theorem Space.not_user {w page : Nat} {perm : Bool} (h : Space L d s vm₀ vm role₀ role)
    (hw : s.mapped ≤ w) : vm.page d w ≠ some ⟨page, perm, true⟩ := by
  intro hpage
  by_cases hlow : w < 2 ^ 19
  · rw [h.above w hlow hw] at hpage
    cases hpage
  · have hu := h.kernel w _ (by omega) hpage
    cases hu

inductive Loads (file : List UInt8) (ph : Proghdr) (mapped : Nat) (vm₀ vm : Vm) :
    Except ExecFault (Vm × List Store × Bool) → Prop
  | fault {e : ExecFault} (hfit : ¬ SegmentFits file ph mapped) : Loads file ph mapped vm₀ vm (.error e)
  | done {vm' : Vm} {stores : List Store} {loaded : Bool} (hsame : SameTables vm vm')
      (hst : ∀ st ∈ stores, StoreOk vm₀ st) (hfit : SegmentFits file ph mapped)
      (hloads : loaded = true ↔ SegmentLoads file ph mapped) :
      Loads file ph mapped vm₀ vm (.ok (vm', stores, loaded))

theorem Loads.after {file : List UInt8} {ph : Proghdr} {mapped : Nat}
    {r : Except ExecFault (Vm × List Store × Bool)} (hsame : SameTables vm vm')
    (h : Loads file ph mapped vm₀ vm' r) : Loads file ph mapped vm₀ vm r := by
  cases h with
  | fault hfit => exact .fault hfit
  | done hsame' hst hfit hloads => exact .done (hsame.trans hsame') hst hfit hloads

structure LoadedTo (file : List UInt8) (ph : Proghdr) (mapped i : Nat) : Prop where
  aligned : i % pgsize = 0
  start : i = 0 ∨ ph.vaddr + i ≤ mapped * pgsize ∧ ph.off + min i ph.filesz ≤ file.length

theorem LoadedTo.done {file : List UInt8} {ph : Proghdr} {mapped i : Nat}
    (h : LoadedTo file ph mapped i) (halign : ph.vaddr % pgsize = 0) (hi : ph.filesz ≤ i) :
    SegmentFits file ph mapped ∧ SegmentLoads file ph mapped := by
  have hin : ph.filesz ≤ inside ph mapped := by
    unfold inside
    rcases h.start with rfl | ⟨hi', _⟩
    · omega
    · omega
  refine ⟨⟨halign, .inl hin⟩, hin, ?_⟩
  rcases h.start with rfl | ⟨_, hread⟩
  · exact .inl (by omega)
  · rw [Nat.min_eq_right hi] at hread
    exact .inr hread

theorem LoadedTo.short {file : List UInt8} {ph : Proghdr} {mapped i n : Nat}
    (h : LoadedTo file ph mapped i) (halign : ph.vaddr % pgsize = 0)
    (hlt : i < ph.filesz) (hi : i + n ≤ ph.filesz) (hle : n ≤ pgsize)
    (hn : n = pgsize ∨ i + n = ph.filesz) (hin : ph.vaddr + i < mapped * pgsize)
    (hshort : file.length < ph.off + i + n) :
    SegmentFits file ph mapped ∧ ¬ SegmentLoads file ph mapped := by
  have hpos : 0 < pgsize := by decide
  have hpage : i + pgsize ≤ inside ph mapped := by
    have := h.aligned
    simp only [inside, pgsize] at *
    omega
  refine ⟨⟨halign, ?_⟩, ?_⟩
  · by_cases hall : ph.filesz ≤ inside ph mapped
    · exact .inl hall
    · refine .inr (.inl ⟨by omega, ?_⟩)
      rcases hn with rfl | hn
      · omega
      · omega
  · rintro ⟨_, hl⟩
    omega

theorem LoadedTo.outside {file : List UInt8} {ph : Proghdr} {mapped i : Nat}
    (h : LoadedTo file ph mapped i) (hi : i < ph.filesz) (hout : mapped * pgsize ≤ ph.vaddr + i) :
    inside ph mapped = i ∧ ¬ SegmentLoads file ph mapped ∧
      (SegmentFits file ph mapped ↔ ph.vaddr % pgsize = 0 ∧ tableAt mapped (ph.vaddr + i) ∧
        (file.length ≤ ph.off + i ∨ 2 ^ 32 ≤ ph.off + i + min (ph.filesz - i) pgsize)) := by
  have hin : inside ph mapped = i := by
    unfold inside
    rcases h.start with rfl | ⟨hi', _⟩
    · omega
    · omega
  refine ⟨hin, ?_, ?_⟩
  · rintro ⟨hl, _⟩
    omega
  · unfold SegmentFits
    rw [hin]
    refine and_congr_right fun _ => ⟨fun hc => ?_, fun hc => .inr (.inr hc)⟩
    refine (hc.resolve_left (by omega)).resolve_left ?_
    rintro ⟨hpos, hlt⟩
    have hread := (h.start.resolve_left (by omega)).2
    rw [Nat.min_eq_left hi.le] at hread
    omega

theorem loadLoop_spec {file : List UInt8} {ph : Proghdr} (hph : Bounded ph)
    (hfile : file.length < 2 ^ 32) (hf : Fresh d vm₀ role₀) (halign : ph.vaddr % pgsize = 0)
    (fuel : Nat) : ∀ {vm : Vm} (stores : List Store) {i : Nat},
    Space L d s vm₀ vm role₀ role → LoadedTo file ph s.mapped i → ph.filesz ≤ i + fuel * pgsize →
    (∀ st ∈ stores, StoreOk vm₀ st) →
    Loads file ph s.mapped vm₀ vm (loadLoop d file ph fuel vm stores i) := by
  induction fuel with
  | zero =>
    intro vm stores i _ hto hfuel hstores
    obtain ⟨hfit, hloads⟩ := hto.done halign (by omega)
    exact .done (.refl vm) hstores hfit (iff_of_true rfl hloads)
  | succ fuel ih =>
    intro vm stores i hspace hto hfuel hstores
    have hbound := hspace.mapped_le
    have hi := hto.aligned
    have hvaddr := hph.vaddr
    have hphoff := hph.off
    rw [loadLoop]
    by_cases hlt : i < ph.filesz
    · have hoff : uint (ph.off + i) = ph.off + i ∧ ph.off + i < 2 ^ 32 := by
        unfold uint
        rcases hto.start with rfl | ⟨_, hread⟩
        · omega
        · rw [Nat.min_eq_left hlt.le] at hread
          omega
      have hlow : ph.vaddr + i < 2 ^ 32 := by
        rcases hto.start with rfl | ⟨hread, _⟩
        · omega
        · simp only [pgsize] at hread
          omega
      have hva : uint (ph.vaddr + i) = (ph.vaddr + i) / pgsize * pgsize := by
        simp only [uint, pgsize] at *
        omega
      have hva' : (ph.vaddr + i) / pgsize * pgsize = ph.vaddr + i := by
        simp only [pgsize] at *
        omega
      have hpn : (ph.vaddr + i) / pgsize < 2 ^ 20 := by
        simp only [pgsize]
        omega
      rw [if_pos hlt]
      simp only [hva, hoff.1]
      generalize hn : (if ph.filesz - i < pgsize then ph.filesz - i else pgsize) = n
      have hn' : i + n ≤ ph.filesz ∧ 0 < n ∧ (n = pgsize ∨ i + n = ph.filesz) ∧ n ≤ pgsize ∧
          n = min (ph.filesz - i) pgsize := by
        subst hn
        have hpos : 0 < pgsize := by decide
        split_ifs <;> omega
      by_cases hin : ph.vaddr + i < s.mapped * pgsize
      · have hpage : (ph.vaddr + i) / pgsize < s.mapped := Nat.div_lt_of_lt_mul (by rwa [Nat.mul_comm])
        obtain ⟨q, hq⟩ := hspace.mapped _ hpage
        have hpres : vm.present d ((ph.vaddr + i) / pgsize / 1024) = true :=
          (hspace.present _).mpr (.inr (by omega))
        obtain ⟨pt, hwalk, _, hleaf⟩ := walk_present hpn hpres
        rw [hq] at hleaf
        -- Every way to stop here is a read that came up short.
        have hstop : file.length < ph.off + i + n →
            SegmentFits file ph s.mapped ∧ ¬ SegmentLoads file ph s.mapped :=
          hto.short halign hlt hn'.1 hn'.2.2.2.1 hn'.2.2.1 hin
        simp only [hwalk]
        cases hbytes : readFile file (ph.off + i) n with
        | none =>
          obtain ⟨hfit, hloads⟩ := hstop (by
            rcases readFile_none hbytes hoff.2 hn'.2.2.2.1 with hc | hc <;> omega)
          exact .done (.refl vm) hstores hfit (iff_of_false Bool.false_ne_true hloads)
        | some bytes =>
          have hlen := readFile_length hbytes
          cases bytes with
          | nil =>
            obtain ⟨hfit, hloads⟩ := hstop (by
              rw [List.length_nil] at hlen
              omega)
            exact .done (.refl vm) hstores hfit (iff_of_false Bool.false_ne_true hloads)
          | cons b bs =>
            rw [List.length_cons] at hlen
            have hst : StoreOk vm₀ ⟨ph, (ph.vaddr + i) / pgsize * pgsize, bs.length + 1, q⟩ := by
              refine ⟨hspace.page_free hf (by omega) hq, ?_, ?_, ?_⟩
              · change ph.vaddr ≤ (ph.vaddr + i) / pgsize * pgsize
                omega
              · change (ph.vaddr + i) / pgsize * pgsize + (bs.length + 1) ≤ ph.vaddr + ph.filesz
                omega
              · change (ph.vaddr + i) / pgsize * pgsize + (bs.length + 1) ≤ 2 ^ 32
                simp only [pgsize] at *
                omega
            have hstores' : ∀ st ∈ stores ++
                [(⟨ph, (ph.vaddr + i) / pgsize * pgsize, bs.length + 1, q⟩ : Store)],
                StoreOk vm₀ st := by
              intro st hmem
              rcases List.mem_append.mp hmem with hmem | hmem
              · exact hstores st hmem
              · rw [List.mem_singleton.mp hmem]
                exact hst
            simp only [← hleaf]
            by_cases hfull : bs.length + 1 = n
            · rw [if_neg (by simpa using hfull)]
              have hnext : uint (i + pgsize) = i + pgsize := by
                have := hph.filesz
                simp only [uint, pgsize] at *
                omega
              have hrd := readFile_full hbytes (by rw [List.length_cons]; exact hfull)
              rw [hnext]
              refine .after (store_same vm q 0 (b :: bs)) (ih _
                (hspace.same (store_same vm q 0 (b :: bs))) ⟨?_, .inr ⟨?_, ?_⟩⟩ ?_ hstores')
              · simp only [pgsize] at *
                omega
              · simp only [pgsize] at *
                omega
              · omega
              · rw [Nat.add_mul, Nat.one_mul] at hfuel
                omega
            · rw [if_pos (by simpa using hfull)]
              obtain ⟨hfit, hloads⟩ := hstop (by omega)
              exact .done (store_same vm q 0 _) hstores' hfit
                (iff_of_false Bool.false_ne_true hloads)
      · obtain ⟨_, hloads, hfits⟩ := hto.outside hlt (by omega)
        rw [hspace.present_at.symm] at hfits
        by_cases hpres : vm.present d ((ph.vaddr + i) / pgsize / 1024) = true
        · obtain ⟨pt, hwalk, _, hleaf⟩ := walk_present hpn hpres
          simp only [hwalk]
          cases hbytes : readFile file (ph.off + i) n with
          | none =>
            refine .done (.refl vm) hstores (hfits.mpr ⟨halign, hpres, ?_⟩)
              (iff_of_false Bool.false_ne_true hloads)
            rcases readFile_none hbytes hoff.2 hn'.2.2.2.1 with hc | hc <;> omega
          | some bytes =>
            have hlen := readFile_length hbytes
            have hsome := readFile_some hbytes hn'.2.2.2.1
            cases bytes with
            | nil =>
              refine .done (.refl vm) hstores (hfits.mpr ⟨halign, hpres, .inl ?_⟩)
                (iff_of_false Bool.false_ne_true hloads)
              rw [List.length_nil] at hlen
              omega
            | cons b bs =>
              rw [List.length_cons] at hlen
              dsimp only
              split
              · rename_i page w he
                exact absurd (hleaf.trans he) (hspace.not_user (by
                  simp only [pgsize] at *
                  omega))
              · refine .fault fun hc => ?_
                obtain ⟨_, _, hc⟩ := hfits.mp hc
                omega
        · simp only [walk_absent hpn (by simpa using hpres)]
          exact .fault fun hc => hpres (hfits.mp hc).2.1
    · rw [if_neg hlt]
      obtain ⟨hfit, hloads⟩ := hto.done halign (by omega)
      exact .done (.refl vm) hstores hfit (iff_of_true rfl hloads)

theorem loaduvm_spec {file : List UInt8} {ph : Proghdr} {stores : List Store} (hph : Bounded ph)
    (hfile : file.length < 2 ^ 32) (hf : Fresh d vm₀ role₀) (hspace : Space L d s vm₀ vm role₀ role)
    (hstores : ∀ st ∈ stores, StoreOk vm₀ st) :
    Loads file ph s.mapped vm₀ vm (vm.loaduvm d file ph stores) := by
  rw [loaduvm]
  by_cases halign : ph.vaddr % pgsize = 0
  · rw [if_neg (by simpa using halign)]
    refine loadLoop_spec hph hfile hf halign _ stores hspace ⟨by simp, .inl rfl⟩ ?_ hstores
    simp only [pgsize]
    omega
  · rw [if_pos (by simpa using halign)]
    exact .fault fun hc => halign hc.1

inductive LoadsAll (L : Layout) (d : Nat) (file : List UInt8) (k off : Nat) (s : Loading)
    (vm₀ : Vm) (role₀ : Nat → Role) : Except ExecFault (Vm × List Store × Option Nat) → Prop
  | fault {e : ExecFault} (hfit : ∀ rest, ¬ SegmentsFit file Loading.Any rest k off s) :
      LoadsAll L d file k off s vm₀ role₀ (.error e)
  | done {vm : Vm} {role₁ role : Nat → Role} {stores : List Store} {final : Option Loading}
      (hst : ∀ st ∈ stores, StoreOk vm₀ st)
      (hbuilt : Built L d vm₀ vm role₀ role₁ role
        (SegmentsFit file Loading.Keeps (fun _ => True) k off s) final)
      (hfit : ∀ rest, SegmentsFit file Loading.Any rest k off s ↔ ∀ s' ∈ final, rest s') :
      LoadsAll L d file k off s vm₀ role₀ (.ok (vm, stores, final.map Loading.sz))

theorem LoadsAll.gaveUp {file : List UInt8} {k off : Nat} {stores : List Store}
    {role₁ : Nat → Role} {keeps : Prop} (hst : ∀ st ∈ stores, StoreOk vm₀ st)
    (h : Built L d vm₀ vm role₀ role₁ role keeps none)
    (hkeeps : SegmentsFit file Loading.Keeps (fun _ => True) k off s → keeps)
    (hfit : ∀ rest, SegmentsFit file Loading.Any rest k off s) :
    LoadsAll L d file k off s vm₀ role₀ (.ok (vm, stores, none)) := by
  have hb : Built L d vm₀ vm role₀ role₁ role
      (SegmentsFit file Loading.Keeps (fun _ => True) k off s) none :=
    ⟨h.loses, fun hk => h.kept (hkeeps hk), h.gaveUp, by simp⟩
  exact .done hst hb fun rest => iff_of_true (hfit rest) (by simp)

theorem LoadsAll.bad {file : List UInt8} {k off : Nat} {stores : List Store}
    (hst : ∀ st ∈ stores, StoreOk vm₀ st) (h : Discardable L d vm₀ vm role₀ role)
    (hfit : ∀ rest, SegmentsFit file Loading.Any rest k off s) :
    LoadsAll L d file k off s vm₀ role₀ (.ok (vm, stores, none)) :=
  .gaveUp hst h.built id hfit

theorem LoadsAll.after {file : List UInt8} {k k' off off' : Nat} {s' : Loading}
    {role₁ : Nat → Role} {keeps : Prop} {r : Except ExecFault (Vm × List Store × Option Nat)}
    (h : LoadsAll L d file k off s' vm₀ role₁ r) (hloses : Loses role₀ role₁)
    (hkept : keeps → role₁ = role₀)
    (hkeeps : SegmentsFit file Loading.Keeps (fun _ => True) k' off' s →
      keeps ∧ SegmentsFit file Loading.Keeps (fun _ => True) k off s')
    (hfit : ∀ rest, SegmentsFit file Loading.Any rest k' off' s ↔
      SegmentsFit file Loading.Any rest k off s') :
    LoadsAll L d file k' off' s vm₀ role₀ r := by
  cases h with
  | fault hno => exact .fault fun rest hc => hno rest ((hfit rest).mp hc)
  | done hst hb hiff =>
    refine .done hst ⟨hloses.trans hb.loses, fun hk => ?_, hb.gaveUp, hb.space⟩
      fun rest => (hfit rest).trans (hiff rest)
    obtain ⟨hk₁, hk₂⟩ := hkeeps hk
    rw [hb.kept hk₂, hkept hk₁]

theorem loadSegments_spec {file : List UInt8} (hfile : file.length < 2 ^ 32) (k : Nat) : ∀ {vm : Vm}
    {role₀ role : Nat → Role} {off : Nat} {s : Loading} (stores : List Store), Fresh d vm₀ role₀ →
    Space L d s vm₀ vm role₀ role → (∀ st ∈ stores, StoreOk vm₀ st) →
    LoadsAll L d file k off s vm₀ role₀ (loadSegments L d file k vm stores off s.sz) := by
  induction k with
  | zero =>
    intro vm role₀ role off s stores _ hspace hstores
    have hb : Built L d vm₀ vm role₀ role₀ role
        (SegmentsFit file Loading.Keeps (fun _ => True) 0 off s) (some s) := hspace.built
    refine .done hstores hb fun rest => ?_
    simp only [Option.mem_some_iff, forall_eq']
    rfl
  | succ k ih =>
    intro vm role₀ role off s stores hf hspace hstores
    rw [loadSegments]
    cases hph : readProghdr file off with
    | none =>
      refine .bad hstores hspace.discardable fun rest => ?_
      rw [SegmentsFit, hph]
      trivial
    | some ph =>
      have hunfold : ∀ grows rest, SegmentsFit file grows rest (k + 1) off s ↔
          if ph.type ≠ elfProgLoad then SegmentsFit file grows rest k (uint (off + 32)) s
          else if ph.memsz < ph.filesz ∨ kernbase ≤ uint (ph.vaddr + ph.memsz) then True
          else grows s (uint (ph.vaddr + ph.memsz)) ∧
            ∀ s' ∈ s.grow (uint (ph.vaddr + ph.memsz)), s'.sz ≠ 0 →
              SegmentFits file ph s'.mapped ∧ (SegmentLoads file ph s'.mapped →
                SegmentsFit file grows rest k (uint (off + 32)) s') := by
        intro grows rest
        rw [SegmentsFit, hph]
      have hb := readProghdr_bounded hph
      dsimp only
      by_cases htype : ph.type ≠ elfProgLoad
      · simp only [if_pos htype] at hunfold ⊢
        exact (ih stores hf hspace hstores).after (.refl role₀) (fun _ : True => rfl)
          (fun hk => ⟨trivial, (hunfold _ _).mp hk⟩) fun rest => hunfold _ rest
      simp only [if_neg htype] at hunfold ⊢
      by_cases hmem : ph.memsz < ph.filesz
      · rw [if_pos hmem]
        refine .bad hstores hspace.discardable fun rest => ?_
        rw [hunfold, if_pos (.inl hmem)]
        trivial
      rw [if_neg hmem]
      generalize uint (ph.vaddr + ph.memsz) = newsz at hunfold ⊢
      by_cases hbig : kernbase ≤ newsz
      · have halloc : vm.allocuvm L d s.sz newsz = .ok (vm, 0) := by
          rw [allocuvm, if_pos hbig]
          rfl
        rw [lift_ok halloc]
        refine .bad hstores hspace.discardable fun rest => ?_
        rw [hunfold, if_pos (.inr hbig)]
        trivial
      simp only [if_neg (not_or.mpr ⟨hmem, hbig⟩)] at hunfold
      obtain ⟨vm₁, role₁, role', halloc, hbuilt⟩ := hspace.alloc hf
        (show newsz < kernbase by omega)
      rw [lift_ok halloc]
      dsimp only
      generalize hgrow : s.grow newsz = grown at hunfold hbuilt ⊢
      cases grown with
      | none =>
        refine .gaveUp hstores hbuilt (fun hk => ((hunfold _ _).mp hk).1) fun rest => ?_
        rw [hunfold]
        exact ⟨trivial, by simp⟩
      | some s' =>
        have hspace' := hbuilt.space s' rfl
        simp only [Option.mem_some_iff, forall_eq'] at hunfold
        change LoadsAll L d file (k + 1) off s vm₀ role₀ (if s'.sz = 0 then _ else _)
        by_cases hzero : s'.sz = 0
        · rw [if_pos hzero]
          refine .gaveUp hstores ⟨hbuilt.loses, hbuilt.kept, fun _ => hspace'.discardable, by simp⟩
            (fun hk => ((hunfold _ _).mp hk).1) fun rest => ?_
          rw [hunfold]
          exact ⟨trivial, fun hc => absurd hzero hc⟩
        rw [if_neg hzero]
        simp only [ne_eq, hzero, not_false_eq_true, true_imp_iff] at hunfold
        have hload := loaduvm_spec hb hfile (hf.loses hbuilt.loses) hspace' hstores
        generalize hr : vm₁.loaduvm d file ph stores = r at hload ⊢
        cases hload with
        | fault hno =>
          exact .fault fun rest hc => hno ((hunfold _ rest).mp hc).2.1
        | done hsame hst hfit hloads =>
          rename_i vm₂ stores₂ loaded
          rw [bind_ok rfl]
          have hspace₂ := hspace'.same hsame
          cases loaded with
          | false =>
            have hno : ¬ SegmentLoads file ph s'.mapped := fun hc => Bool.false_ne_true (hloads.mpr hc)
            refine .gaveUp hst ⟨hbuilt.loses, hbuilt.kept, fun _ => hspace₂.discardable, by simp⟩
              (fun hk => ((hunfold _ _).mp hk).1) fun rest => ?_
            rw [hunfold]
            exact ⟨trivial, hfit, fun hc => absurd hc hno⟩
          | true =>
            have hyes := hloads.mp rfl
            refine (ih stores₂ (hf.loses hbuilt.loses) hspace₂ hst).after hbuilt.loses hbuilt.kept
              (fun hk => ?_) fun rest => ?_
            · obtain ⟨hk₁, hk₂⟩ := (hunfold _ _).mp hk
              exact ⟨hk₁, hk₂.2 hyes⟩
            · rw [hunfold]
              exact ⟨fun hc => hc.2.2 hyes, fun hc => ⟨trivial, hfit, fun _ => hc⟩⟩

end Vm
end Xv6
