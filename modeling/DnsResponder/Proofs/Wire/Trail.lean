import DnsResponder.Proofs.Wire.FullName

/-!
# The trail of a name

What a name on the wire means can be said without any bookkeeping. From its place one
goes on label by label and pointer by pointer, forgetting where one has been, until there
is a zero octet. `Trail` is that walk, and it knows no limits: a label may hold any
octets, and any number of labels and pointers may follow each other. But it is finite,
so a place from which the walk would go round in circles has no trail.

A chase remembers every target and refuses to jump to one twice. That costs nothing. From
one place there is one trail, so each target has its own number of pointers that are
still to come, and along a trail that number falls with each jump. A target met again
would have two such numbers. So a chase refuses a trail for its limits only: more than
128 pointers, more than 255 octets, or an octet outside ASCII.
-/

namespace DnsResponder

/--
The walk from a place to a zero octet: the labels on the way, the number of pointers
followed, and where the datagram goes on, which is behind the first pointer if there is one.
-/
inductive Trail (buf : Bytes) : Nat → List (List UInt8) → Nat → Nat → Prop where
  /-- A zero octet is the end. -/
  | stop {pos : Nat} (h : Stands [0] buf pos) : Trail buf pos [] 0 (pos + 1)
  /-- One to 63 octets behind their number are a label, and the walk goes on behind them. -/
  | label {pos : Nat} {octets : List UInt8} {labels : List (List UInt8)} {jumps stop : Nat}
      (h : Counted octets buf pos) (rest : Trail buf (pos + 1 + octets.length) labels jumps stop) :
      Trail buf pos (octets :: labels) jumps stop
  /-- Two octets of which the first has its two high bits set lead to a place in the datagram. -/
  | jump {pos : Nat} {head low : UInt8} {labels : List (List UInt8)} {jumps stop : Nat}
      (h : Stands [head, low] buf pos) (hmark : 192 ≤ head.toNat)
      (hin : pointerTarget head low < buf.size)
      (rest : Trail buf (pointerTarget head low) labels jumps stop) :
      Trail buf pos labels (jumps + 1) (pos + 2)

namespace Trail

variable {buf : Bytes} {pos jumps jumps' stop stop' : Nat} {labels labels' : List (List UInt8)}

/-- From one place there is one trail. -/
theorem unique (h : Trail buf pos labels jumps stop) (h' : Trail buf pos labels' jumps' stop') :
    labels = labels' ∧ jumps = jumps' ∧ stop = stop' := by
  induction h generalizing labels' jumps' stop' with
  | stop h =>
      cases h' with
      | stop _ => exact ⟨rfl, rfl, rfl⟩
      | label h' _ =>
          obtain ⟨head, hhead, hne, -⟩ := h'.exists_head
          cases h.head.symm.trans hhead
          exact absurd rfl hne
      | jump h' hmark _ _ =>
          cases h.head.symm.trans h'.head
          exact absurd hmark (by decide)
  | label h _ ih =>
      obtain ⟨head, hhead, hne, hlen⟩ := h.exists_head
      cases h' with
      | stop h' =>
          cases hhead.symm.trans h'.head
          exact absurd rfl hne
      | label h' rest =>
          obtain rfl := h.unique h'
          obtain ⟨rfl, hjumps, hstop⟩ := ih rest
          exact ⟨rfl, hjumps, hstop⟩
      | jump h' hmark _ _ =>
          -- a length octet has neither of the two high bits set
          cases hhead.symm.trans h'.head
          have hle := h.length_le
          unfold maxLabelLength at hle
          omega
  | jump h hmark _ _ ih =>
      cases h' with
      | stop h' =>
          cases h.head.symm.trans h'.head
          exact absurd hmark (by decide)
      | label h' _ =>
          obtain ⟨head, hhead, -, hlen⟩ := h'.exists_head
          cases h.head.symm.trans hhead
          have hle := h'.length_le
          unfold maxLabelLength at hle
          omega
      | jump h' _ _ rest =>
          cases h.head.symm.trans h'.head
          cases h.tail.head.symm.trans h'.tail.head
          obtain ⟨hlabels, rfl, -⟩ := ih rest
          exact ⟨hlabels, rfl, rfl⟩

end Trail

/-- What the labels of a trail take up on the wire, with a terminator. -/
def trailLength (labels : List (List UInt8)) : Nat :=
  labels.foldr (fun octets n => octets.length + 1 + n) 1

@[simp] theorem trailLength_nil : trailLength [] = 1 := rfl

@[simp] theorem trailLength_cons (octets : List UInt8) (labels : List (List UInt8)) :
    trailLength (octets :: labels) = octets.length + 1 + trailLength labels := rfl

theorem one_le_trailLength (labels : List (List UInt8)) : 1 ≤ trailLength labels := by
  induction labels with
  | nil => exact Nat.le_refl 1
  | cons octets labels ih => exact Nat.le_trans ih (Nat.le_add_left _ _)

/-- A trail is within the limits of a name. -/
structure Allowed (labels : List (List UInt8)) (jumps : Nat) : Prop where
  jumps_le : jumps ≤ maxJumps
  ascii : ∀ octets ∈ labels, ∀ o ∈ octets, o < 128
  length_le : trailLength labels ≤ maxNameLength

theorem trailLength_map_octets (ls : List Label) :
    trailLength (ls.map Label.octets) = wireLength ls := by
  induction ls with
  | nil => rfl
  | cons l ls ih =>
      rw [List.map_cons, trailLength_cons, wireLength_cons, ih]
      rfl

namespace Chase

variable {buf : Bytes} {origin : Nat}

/-- A chase that ends has walked a trail, with pointers to spare. -/
theorem exists_trail_of_run {c : Chase} {n : Name} {stop : Nat} (hroom : c.visited.length ≤ maxJumps)
    (h : c.run buf origin = .ok (n, stop)) :
    ∃ labels jumps stop', Trail buf c.pos labels jumps stop' ∧
      n.labels.map Label.octets = c.name.labels.map Label.octets ++ labels ∧
      stop = c.resume?.getD stop' ∧ c.visited.length + jumps ≤ maxJumps := by
  induction c using run.induct buf origin with
  | case1 c e hstep => cases (run_of_error hstep).symm.trans h
  | case2 c name stop' hstep =>
      cases (run_of_ended hstep).symm.trans h
      cases step_eq_iff.mp hstep with
      | ended hzero => exact ⟨[], 0, _, .stop hzero, (List.append_nil _).symm, rfl, hroom⟩
  | case3 c c' hstep ih =>
      rw [run_of_onward hstep] at h
      cases step_eq_iff.mp hstep with
      | @labelled l name hcounted hfits hname =>
          obtain ⟨labels, jumps, stop', htrail, hlabels, hstop, hjumps⟩ := ih hroom h
          refine ⟨l.octets :: labels, jumps, stop', .label hcounted htrail, ?_, hstop, hjumps⟩
          rw [hlabels, past, Name.push_eq_ok hname, List.map_append, List.append_assoc]
          rfl
      | jumped hs hmark hin _ hspare =>
          -- that the target is new is of no use here: a trail has no memory
          obtain ⟨labels, jumps, stop', htrail, hlabels, hstop, hjumps⟩ := ih hspare h
          refine ⟨labels, jumps + 1, c.pos + 2, .jump hs hmark hin htrail, hlabels, hstop, ?_⟩
          rw [jumpTo, List.length_cons] at hjumps
          omega

/-- No target of the chase lies ahead of it: each has more pointers to come than are left. -/
def Ahead (c : Chase) (buf : Bytes) (jumps : Nat) : Prop :=
  ∀ target ∈ c.visited, ∃ labels more stop, Trail buf target labels more stop ∧ jumps ≤ more

/-- A chase walks its trail to the end unless it meets a limit. -/
theorem run_of_trail {pos jumps stop : Nat} {labels : List (List UInt8)}
    (h : Trail buf pos labels jumps stop) :
    ∀ c : Chase, c.pos = pos → c.length = c.name.wireLength →
      (∀ octets ∈ labels, ∀ o ∈ octets, o < 128) →
      c.length + trailLength labels ≤ maxNameLength + 1 →
      c.visited.length + jumps ≤ maxJumps → c.Ahead buf jumps →
      ∃ n, c.run buf origin = .ok (n, c.resume?.getD stop) := by
  induction h with
  | stop hzero =>
      rintro c rfl _ _ _ _ _
      exact ⟨c.name, run_of_ended (step_eq_iff.mpr (.ended hzero))⟩
  | @label pos octets labels jumps stop hcounted _ ih =>
      rintro c rfl hlen hascii hfits hjumps hahead
      rw [trailLength_cons] at hfits
      -- the octets are a label, for which the name has room
      let l : Label := ⟨octets, hcounted.ne_nil, hcounted.length_le, hascii octets List.mem_cons_self⟩
      have hwire : wireLength (c.name.labels ++ [l]) = c.length + octets.length + 1 := by
        rw [wireLength_concat, hlen]
        rfl
      have hroom : wireLength (c.name.labels ++ [l]) ≤ maxNameLength := by
        have hrest := one_le_trailLength labels
        omega
      have hstep : c.step buf origin = .ok (.onward (c.past l.length ⟨c.name.labels ++ [l], hroom⟩)) :=
        step_of_label (l := l) hcounted.stands hlen hroom
      rw [run_of_onward hstep]
      refine ih _ rfl hwire.symm (fun octets hmem => hascii octets (List.mem_cons_of_mem _ hmem)) ?_
        hjumps hahead
      show c.length + octets.length + 1 + _ ≤ _
      omega
  | @jump pos head low labels jumps stop hs hmark hin rest ih =>
      rintro c rfl hlen hascii hfits hjumps hahead
      have hnew : pointerTarget head low ∉ c.visited := by
        intro hmem
        -- the target's one trail would have more pointers to come than are left of it
        obtain ⟨_, more, _, htrail, hmore⟩ := hahead _ hmem
        obtain ⟨-, rfl, -⟩ := rest.unique htrail
        omega
      rw [run_of_onward (step_eq_iff.mpr (.jumped hs hmark hin hnew (by omega)))]
      refine ih _ rfl hlen hascii hfits ?_ ?_
      · rw [jumpTo, List.length_cons]
        omega
      · intro target hmem
        rcases List.mem_cons.mp hmem with rfl | hmem
        · exact ⟨labels, jumps, stop, rest, Nat.le_refl _⟩
        · obtain ⟨labels', more, stop', htrail, hmore⟩ := hahead target hmem
          exact ⟨labels', more, stop', htrail, by omega⟩

end Chase

namespace Reader

/--
A name is read exactly where a trail within the limits starts. Then it has the labels of
the trail, and the datagram goes on where the trail says.
-/
theorem name_eq_ok_iff_trail (buf : Bytes) (pos : Nat) :
    ((∃ n stop, name buf pos = .ok (n, stop)) ↔
      ∃ labels jumps stop, Trail buf pos labels jumps stop ∧ Allowed labels jumps) ∧
    ∀ n stop, name buf pos = .ok (n, stop) →
      ∀ labels jumps stop', Trail buf pos labels jumps stop' →
        n.labels.map Label.octets = labels ∧ stop = stop' := by
  have hsound : ∀ n stop, name buf pos = .ok (n, stop) →
      ∃ jumps, Trail buf pos (n.labels.map Label.octets) jumps stop ∧ jumps ≤ maxJumps := by
    intro n stop h
    obtain ⟨labels, jumps, stop', htrail, hlabels, hstop, hjumps⟩ :=
      Chase.exists_trail_of_run (c := Chase.start pos) (Nat.zero_le _) h
    rw [hlabels, hstop]
    rw [Chase.start, List.length_nil, Nat.zero_add] at hjumps
    exact ⟨jumps, htrail, hjumps⟩
  constructor
  · constructor
    · rintro ⟨n, stop, h⟩
      obtain ⟨jumps, htrail, hjumps⟩ := hsound n stop h
      refine ⟨_, jumps, stop, htrail, hjumps, ?_, ?_⟩
      · intro octets hmem
        obtain ⟨l, -, rfl⟩ := List.mem_map.mp hmem
        exact l.ascii
      · rw [trailLength_map_octets]
        exact n.fits
    · rintro ⟨labels, jumps, stop, htrail, hallowed⟩
      have hnone : (Chase.start pos).Ahead buf jumps := by
        intro target hmem
        cases hmem
      have hfits : (Chase.start pos).length + trailLength labels ≤ maxNameLength + 1 := by
        rw [Chase.start, Nat.add_comm 1]
        exact Nat.succ_le_succ hallowed.length_le
      have hjumps : (Chase.start pos).visited.length + jumps ≤ maxJumps := by
        rw [Chase.start, List.length_nil, Nat.zero_add]
        exact hallowed.jumps_le
      obtain ⟨n, hrun⟩ := Chase.run_of_trail htrail (Chase.start pos) rfl rfl hallowed.ascii
        hfits hjumps hnone
      exact ⟨n, _, hrun⟩
  · intro n stop h labels jumps stop' htrail
    obtain ⟨jumps', htrail', -⟩ := hsound n stop h
    obtain ⟨hlabels, -, hstop⟩ := htrail'.unique htrail
    exact ⟨hlabels, hstop⟩

end Reader

end DnsResponder
