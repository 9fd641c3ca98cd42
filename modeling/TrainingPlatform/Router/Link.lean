import TrainingPlatform.Router.Host

/-!
# Links to exposed ports

The host a lesson page builds is proxied to the Pod it was built for.  `hostRe` is
greedy and its tails are optional, but the host of a link has one reading only.
-/

namespace TrainingPlatform.Router

open Go Go.Re

/-! ## Addresses and router hosts -/

structure IPv4 where
  a : Fin 256
  b : Fin 256
  c : Fin 256
  d : Fin 256

def IPv4.octets (ip : IPv4) : List GoString :=
  [itoa ip.a.val, itoa ip.b.val, itoa ip.c.val, itoa ip.d.val]

def IPv4.text (ip : IPv4) : GoString := join ip.octets [dot]

/-- An optional part behind the byte that introduces it. -/
def optional (b : UInt8) : Option GoString → GoString
  | none => []
  | some s => b :: s

/-- A DNS name with a port or without. -/
def hostText (name : GoString) (port : Option GoString) : GoString := name ++ optional colon port

/-- The value of `RouterHost`: in it no digit stands right behind "ip". -/
structure RouterHost where
  name : GoString
  port : Option GoString
  name_ne_nil : name ≠ []
  name_bytes : ∀ b ∈ name, isNameByte b = true
  port_digits : ∀ p ∈ port, (p ≠ [] ∧ p.length ≤ 5) ∧ ∀ b ∈ p, isDecimal b = true
  no_ip : ∀ b, isDecimal b = true → ¬ utf8 "ip" ++ [b] <:+: hostText name port

def RouterHost.text (R : RouterHost) : GoString := hostText R.name R.port

/-! ## Splitting at a byte -/

theorem append_cons_inj_right {b : UInt8} {u v u' v' : GoString} (hv : b ∉ v) (hv' : b ∉ v')
    (h : u ++ b :: v = u' ++ b :: v') : u = u' ∧ v = v' := by
  rcases List.append_eq_append_iff.mp h with ⟨w, rfl, hw⟩ | ⟨w, rfl, hw⟩
  · cases w with
    | nil => exact ⟨(List.append_nil u).symm, (List.cons.inj hw).2⟩
    | cons c w =>
      have hmem : b ∈ v := by
        rw [(List.cons.inj hw).2]
        exact List.mem_append_right w (List.mem_cons_self)
      exact absurd hmem hv
  · cases w with
    | nil => exact ⟨List.append_nil u', (List.cons.inj hw).2.symm⟩
    | cons c w =>
      have hmem : b ∈ v' := by
        rw [(List.cons.inj hw).2]
        exact List.mem_append_right w (List.mem_cons_self)
      exact absurd hmem hv'

theorem not_mem_of_bytes {f : UInt8 → Bool} {b : UInt8} {s : GoString}
    (h : ∀ b ∈ s, f b = true) (hb : f b = false) : b ∉ s := by
  intro hmem
  rw [h b hmem] at hb
  contradiction

/-! ## Four numbers joined by dashes -/

/-- `\d{1,3}`. -/
def Octet (s : GoString) : Prop := (s ≠ [] ∧ s.length ≤ 3) ∧ ∀ b ∈ s, isDecimal b = true

def dashed (a b c d : GoString) : GoString :=
  a ++ dash :: (b ++ dash :: (c ++ dash :: d))

theorem Octet.dash_not_mem {s : GoString} (h : Octet s) : dash ∉ s :=
  not_mem_of_bytes h.2 (by decide)

theorem octet_itoa (n : Fin 256) : Octet (itoa n.val) := by
  refine ⟨⟨itoa_ne_nil _, length_itoa_le (by decide) ?_⟩, fun _ => isDecimal_of_mem_itoa⟩
  exact lt_trans n.isLt (by decide)

theorem consumes_octet {u : GoString} {d : Caps} : Consumes octet u d ↔ Octet u ∧ d = [] :=
  consumes_upTo_set.trans and_assoc.symm

/-! ## What the expression captures -/

/-- The parts `hostRe` divides a host into. -/
structure Reading where
  before : GoString
  a : GoString
  b : GoString
  c : GoString
  d : GoString
  token : GoString
  port : Option GoString
  name : Option GoString
  outer : Option GoString

namespace Reading

def address (r : Reading) : GoString := dashed r.a r.b r.c r.d

def text (r : Reading) : GoString :=
  r.before ++ (utf8 "ip" ++ (r.address ++ (dash :: (r.token ++ (optional dash r.port ++
    (optional dot r.name ++ optional colon r.outer))))))

def caps (r : Reading) : Caps :=
  (r.port.toList.map fun p => (3, p)) ++ [(2, r.token), (1, r.address)]

structure Valid (r : Reading) : Prop where
  before : ∀ b ∈ r.before, b ∉ utf8 "\n"
  octets : Octet r.a ∧ Octet r.b ∧ Octet r.c ∧ Octet r.d
  token_ne_nil : r.token ≠ []
  token : ∀ b ∈ r.token, isTokenByte b = true
  port : ∀ p ∈ r.port, (p ≠ [] ∧ p.length ≤ 5) ∧ ∀ b ∈ p, isDecimal b = true
  name : ∀ n ∈ r.name, n ≠ [] ∧ ∀ b ∈ n, isNameByte b = true
  outer : ∀ p ∈ r.outer, (p ≠ [] ∧ p.length ≤ 5) ∧ ∀ b ∈ p, isDecimal b = true

end Reading

theorem consumes_optional {b : UInt8} {r : Re} {P : GoString → Prop} {f : GoString → Caps}
    (hr : ∀ v c, Consumes r v c ↔ P v ∧ c = f v) {u : GoString} {e : Caps} :
    Consumes (opt (all [byte b, r])) u e ↔
      ∃ o : Option GoString, (∀ v ∈ o, P v) ∧ u = optional b o ∧ e = o.toList.flatMap f := by
  simp only [consumes_opt, consumes_all_byte_cons, consumes_all_singleton, hr]
  constructor
  · rintro (⟨v, ⟨hv, rfl⟩, rfl⟩ | ⟨rfl, rfl⟩)
    · exact ⟨some v, fun v' hv' => by cases hv'; exact hv, rfl, by simp⟩
    · exact ⟨none, nofun, rfl, rfl⟩
  · rintro ⟨o, ho, rfl, rfl⟩
    cases o with
    | none => exact .inr ⟨rfl, rfl⟩
    | some v => exact .inl ⟨v, ⟨ho v rfl, by simp⟩, rfl⟩

theorem consumes_octet_dash {rs : List Re} {u : GoString} {e : Caps} :
    Consumes (all (octet :: byte dash :: rs)) u e ↔
      ∃ a w, Octet a ∧ Consumes (all rs) w e ∧ u = a ++ dash :: w := by
  simp only [consumes_all_cons_of_plain consumes_octet, consumes_all_byte_cons]
  constructor
  · rintro ⟨a, _, ha, ⟨w, hw, rfl⟩, rfl⟩
    exact ⟨a, w, ha, hw, rfl⟩
  · rintro ⟨a, w, ha, hw, rfl⟩
    exact ⟨a, dash :: w, ha, ⟨w, hw, rfl⟩, rfl⟩

theorem consumes_address {u : GoString} {e : Caps} :
    Consumes (all [octet, byte dash, octet, byte dash, octet, byte dash, octet]) u e ↔
      ∃ a b c d, (Octet a ∧ Octet b ∧ Octet c ∧ Octet d) ∧ u = dashed a b c d ∧ e = [] := by
  simp only [consumes_octet_dash, consumes_all_singleton, consumes_octet]
  constructor
  · rintro ⟨a, _, ha, ⟨b, _, hb, ⟨c, d, hc, ⟨hd, rfl⟩, rfl⟩, rfl⟩, rfl⟩
    exact ⟨a, b, c, d, ⟨ha, hb, hc, hd⟩, rfl, rfl⟩
  · rintro ⟨a, b, c, d, ⟨ha, hb, hc, hd⟩, rfl, rfl⟩
    exact ⟨a, _, ha, ⟨b, _, hb, ⟨c, d, hc, ⟨hd, rfl⟩, rfl⟩, rfl⟩, rfl⟩

theorem consumes_port {u : GoString} {e : Caps} :
    Consumes (opt (all [byte dash, group 3 (upTo (set isDecimal) 4)])) u e ↔
      ∃ o : Option GoString,
        (∀ p ∈ o, (p ≠ [] ∧ p.length ≤ 5) ∧ ∀ b ∈ p, isDecimal b = true) ∧
        u = optional dash o ∧ e = o.toList.map fun p => (3, p) := by
  have hgroup : ∀ v c, Consumes (group 3 (upTo (set isDecimal) 4)) v c ↔
      ((v ≠ [] ∧ v.length ≤ 5) ∧ ∀ b ∈ v, isDecimal b = true) ∧ c = [(3, v)] := by
    intro v c
    rw [consumes_group]
    constructor
    · rintro ⟨d, hv, rfl⟩
      obtain ⟨hlen, hdigits, rfl⟩ := consumes_upTo_set.mp hv
      exact ⟨⟨hlen, hdigits⟩, rfl⟩
    · rintro ⟨⟨hlen, hdigits⟩, rfl⟩
      exact ⟨[], consumes_upTo_set.mpr ⟨hlen, hdigits, rfl⟩, rfl⟩
  simp only [List.map_eq_flatMap]
  exact consumes_optional hgroup

/-- A match of `hostRe` reads its host in one of these ways. -/
theorem consumes_hostParts {s : GoString} {e : Caps} :
    Consumes (all hostParts) s e ↔ ∃ r : Reading, r.Valid ∧ s = r.text ∧ e = r.caps := by
  have hname : ∀ v c, Consumes (many1 (set isNameByte)) v c ↔
      (v ≠ [] ∧ ∀ b ∈ v, isNameByte b = true) ∧ c = [] :=
    fun _ _ => consumes_many1_set.trans and_assoc.symm
  have houter : ∀ v c, Consumes (upTo (set isDecimal) 4) v c ↔
      ((v ≠ [] ∧ v.length ≤ 5) ∧ ∀ b ∈ v, isDecimal b = true) ∧ c = [] :=
    fun _ _ => consumes_upTo_set.trans and_assoc.symm
  have hnone : ∀ o : Option GoString, o.toList.flatMap (fun _ => ([] : Caps)) = [] := by
    intro o
    cases o <;> rfl
  constructor
  · intro h
    obtain ⟨before, _, hbefore, h₁, rfl⟩ := (consumes_all_cons_of_plain consumes_many_set).mp h
    obtain ⟨_, _, rfl, h₂, rfl⟩ := (consumes_all_cons_of_plain consumes_lit).mp h₁
    obtain ⟨_, _, _, _, hgroup, h₃, rfl, rfl⟩ := consumes_all_cons.mp h₂
    obtain ⟨_, haddress, rfl⟩ := consumes_group.mp hgroup
    obtain ⟨a, b, c, d, hoctets, rfl, rfl⟩ := consumes_address.mp haddress
    obtain ⟨_, h₄, rfl⟩ := consumes_all_byte_cons.mp h₃
    obtain ⟨token, _, _, _, hgroup', h₅, rfl, rfl⟩ := consumes_all_cons.mp h₄
    obtain ⟨_, hmany, rfl⟩ := consumes_group.mp hgroup'
    obtain ⟨htokenNe, htoken, rfl⟩ := consumes_many1_set.mp hmany
    obtain ⟨_, _, _, _, hopt, h₆, rfl, rfl⟩ := consumes_all_cons.mp h₅
    obtain ⟨port, hport, rfl, rfl⟩ := consumes_port.mp hopt
    obtain ⟨_, _, _, _, hopt', h₇, rfl, rfl⟩ := consumes_all_cons.mp h₆
    obtain ⟨name, hname', rfl, rfl⟩ := (consumes_optional hname).mp hopt'
    obtain ⟨outer, houter', rfl, rfl⟩ :=
      (consumes_optional houter).mp (consumes_all_singleton.mp h₇)
    refine ⟨⟨before, a, b, c, d, token, port, name, outer⟩,
      ⟨?_, hoctets, htokenNe, htoken, hport, hname', houter'⟩, rfl, ?_⟩
    · simpa using hbefore
    · simp [Reading.caps, Reading.address, hnone]
  · rintro ⟨r, hr, rfl, rfl⟩
    have hport := consumes_port.mpr ⟨r.port, hr.port, rfl, rfl⟩
    have hname' := (consumes_optional (b := dot) hname).mpr ⟨r.name, hr.name, rfl, rfl⟩
    have houter' := (consumes_optional (b := colon) houter).mpr ⟨r.outer, hr.outer, rfl, rfl⟩
    have htail := Consumes.seq hport (Consumes.seq hname' (consumes_all_singleton.mpr houter'))
    have htoken := Consumes.group (n := 2) (consumes_many1_set.mpr ⟨hr.token_ne_nil, hr.token, rfl⟩)
    have haddress := Consumes.group (n := 1)
      (consumes_address.mpr ⟨r.a, r.b, r.c, r.d, hr.octets, rfl, rfl⟩)
    have hbefore : Consumes (many (noneOf (utf8 "\n"))) r.before [] :=
      consumes_many_set.mpr ⟨by simpa using hr.before, rfl⟩
    have hall : Consumes (all hostParts) _ _ :=
      Consumes.seq hbefore <| .seq (consumes_lit (s := utf8 "ip").mpr ⟨rfl, rfl⟩) <|
      .seq haddress <| .seq (consumes_byte (b := dash).mpr ⟨rfl, rfl⟩) <| .seq htoken htail
    simpa [Reading.text, Reading.caps, Reading.address, hnone] using hall

theorem utf8_ip : utf8 "ip" = [0x69, 0x70] := by decide

/-! ## One reading

Split from the right, where no dash can stand in a number or a token, the text of a
link's host up to its router host can be read in one way only. -/

def isStemByte (b : UInt8) : Bool := b ≠ dot && b ≠ colon

theorem stem_of_bytes {f : UInt8 → Bool} {s : GoString} (h : ∀ b ∈ s, f b = true)
    (hdot : f dot = false) (hcolon : f colon = false) : ∀ b ∈ s, isStemByte b = true := by
  intro b hb
  rw [isStemByte, Bool.and_eq_true, decide_eq_true_eq, decide_eq_true_eq]
  constructor
  · rintro rfl
    exact not_mem_of_bytes h hdot hb
  · rintro rfl
    exact not_mem_of_bytes h hcolon hb

theorem bytes_append {f : UInt8 → Bool} {s t : GoString} (hs : ∀ b ∈ s, f b = true)
    (ht : ∀ b ∈ t, f b = true) : ∀ b ∈ s ++ t, f b = true :=
  fun b hb => (List.mem_append.mp hb).elim (hs b) (ht b)

/-- Parts behind dashes. -/
def chain (u : GoString) (vs : List GoString) : GoString := vs.foldl (fun u v => u ++ dash :: v) u

theorem chain_concat (u v : GoString) (vs : List GoString) :
    chain u (vs ++ [v]) = chain u vs ++ dash :: v := by
  rw [chain, List.foldl_append]
  rfl

theorem chain_inj {u u' : GoString} {vs vs' : List GoString} (hvs : ∀ v ∈ vs, dash ∉ v)
    (hvs' : ∀ v ∈ vs', dash ∉ v) (hlen : vs.length = vs'.length)
    (h : chain u vs = chain u' vs') : u = u' ∧ vs = vs' := by
  induction vs using List.reverseRecOn generalizing vs' with
  | nil =>
    obtain rfl := List.length_eq_zero_iff.mp hlen.symm
    exact ⟨h, rfl⟩
  | append_singleton vs v ih =>
    cases vs' using List.reverseRecOn with
    | nil => simp at hlen
    | append_singleton vs' v' =>
      rw [chain_concat, chain_concat] at h
      have hv := hvs v (List.mem_append_right _ (List.mem_singleton_self v))
      have hv' := hvs' v' (List.mem_append_right _ (List.mem_singleton_self v'))
      obtain ⟨hchain, rfl⟩ := append_cons_inj_right hv hv' h
      have hlen' : vs.length = vs'.length := by simpa using hlen
      obtain ⟨hu, rfl⟩ := ih (fun w hw => hvs w (List.mem_append_left _ hw))
        (fun w hw => hvs' w (List.mem_append_left _ hw)) hlen' hchain
      exact ⟨hu, rfl⟩

theorem bytes_chain {f : UInt8 → Bool} (hf : f dash = true) {u : GoString} {vs : List GoString}
    (hu : ∀ b ∈ u, f b = true) (hvs : ∀ v ∈ vs, ∀ b ∈ v, f b = true) :
    ∀ b ∈ chain u vs, f b = true := by
  induction vs using List.reverseRecOn with
  | nil => exact hu
  | append_singleton vs v ih =>
    rw [chain_concat]
    refine bytes_append (ih fun w hw => hvs w (List.mem_append_left _ hw)) ?_
    exact List.forall_mem_cons.mpr
      ⟨hf, hvs v (List.mem_append_right _ (List.mem_singleton_self v))⟩

theorem stem_eq {stem R L tail : GoString} (hstem : ∀ b ∈ stem, isStemByte b = true)
    (hL : ∀ b ∈ L, isStemByte b = true) (htail : ∀ b ∈ tail.head?, isStemByte b = false)
    (h : stem ++ dot :: R = L ++ tail) : stem = L := by
  have htake : ∀ {s t : GoString}, (∀ b ∈ s, isStemByte b = true) →
      (∀ b ∈ t.head?, isStemByte b = false) → (s ++ t).takeWhile isStemByte = s := by
    intro s t hs ht
    rw [List.takeWhile_append_of_pos hs]
    cases t with
    | nil => exact List.append_nil s
    | cons b t =>
      rw [List.takeWhile_cons_of_neg (by simp [ht b rfl]), List.append_nil]
  have hdot : ∀ b ∈ (dot :: R).head?, isStemByte b = false := by
    intro b hb
    cases hb
    decide
  rw [← htake hstem hdot, h, htake hL htail]

/-- Either the text in front of an address ends within the first label, or the address
is found in the router host. -/
theorem stem_of_before {stem R before tail : GoString} (hR : ∀ b, isDecimal b = true →
    ¬ utf8 "ip" ++ [b] <:+: R) {b : UInt8} (hb : isDecimal b = true)
    (hstem : ∀ b ∈ stem, isStemByte b = true)
    (h : stem ++ dot :: R = before ++ (utf8 "ip" ++ b :: tail)) :
    ∀ b ∈ before, isStemByte b = true := by
  rcases List.append_eq_append_iff.mp h with ⟨w, rfl, hw⟩ | ⟨w, rfl, hw⟩
  · cases w with
    | nil => exact absurd (List.cons.inj hw).1 (by decide)
    | cons c w =>
      have hinfix : utf8 "ip" ++ [b] <:+: R := by
        rw [(List.cons.inj hw).2]
        exact ⟨w, tail, by simp⟩
      exact absurd hinfix (hR b hb)
  · exact fun b hb => hstem b (List.mem_append_left _ hb)

theorem Reading.text_eq_chain (r : Reading) :
    r.text = chain (r.before ++ utf8 "ip" ++ r.a) ([r.b, r.c, r.d, r.token] ++ r.port.toList) ++
      (optional dot r.name ++ optional colon r.outer) := by
  cases hp : r.port <;> simp [text, address, dashed, chain, optional, hp]

/-- What a link's host looks like. -/
structure Link where
  before : GoString
  a : GoString
  b : GoString
  c : GoString
  d : GoString
  token : GoString
  port : GoString
  routerHost : GoString

def Link.stem (l : Link) : GoString :=
  chain (l.before ++ utf8 "ip" ++ l.a) [l.b, l.c, l.d, l.token, l.port]

def Link.text (l : Link) : GoString := l.stem ++ dot :: l.routerHost

structure Link.Valid (l : Link) : Prop where
  before : ∀ b ∈ l.before, isStemByte b = true
  octets : Octet l.a ∧ Octet l.b ∧ Octet l.c ∧ Octet l.d
  token : ∀ b ∈ l.token, isTokenByte b = true
  port : ∀ b ∈ l.port, isDecimal b = true
  no_ip : ∀ b, isDecimal b = true → ¬ utf8 "ip" ++ [b] <:+: l.routerHost

/-- A class of bytes with the parts of a link's first label in it has the label in it. -/
theorem Link.stem_bytes {f : UInt8 → Bool} (hdash : f dash = true)
    (hip : ∀ b ∈ utf8 "ip", f b = true) (hdecimal : ∀ b, isDecimal b = true → f b = true)
    (htoken : ∀ b, isTokenByte b = true → f b = true) {l : Link} (hl : l.Valid)
    (hbefore : ∀ b ∈ l.before, f b = true) : ∀ b ∈ l.stem, f b = true := by
  obtain ⟨ha, hb, hc, hd⟩ := hl.octets
  have hoctet : ∀ {s}, Octet s → ∀ b ∈ s, f b = true := fun h b hb => hdecimal b (h.2 b hb)
  refine bytes_chain hdash (bytes_append (bytes_append hbefore hip) (hoctet ha)) ?_
  simp only [List.forall_mem_cons, List.not_mem_nil, false_implies, implies_true, and_true]
  exact ⟨hoctet hb, hoctet hc, hoctet hd, fun b hb => htoken b (hl.token b hb),
    fun b hb => hdecimal b (hl.port b hb)⟩

theorem stem_of_tokenByte (b : UInt8) (hb : isTokenByte b = true) : isStemByte b = true :=
  stem_of_bytes (s := [b]) (List.forall_mem_singleton.mpr hb) (by decide) (by decide) b
    (List.mem_singleton_self b)

theorem tokenByte_of_decimal (b : UInt8) (hb : isDecimal b = true) : isTokenByte b = true := by
  rw [isTokenByte, hb, Bool.true_or]

theorem Link.stem_stemBytes {l : Link} (hl : l.Valid) : ∀ b ∈ l.stem, isStemByte b = true :=
  l.stem_bytes (by decide +kernel) (by decide +kernel)
    (fun b hb => stem_of_tokenByte b (tokenByte_of_decimal b hb)) stem_of_tokenByte hl hl.before

/-- The one reading of a link's host. -/
theorem Reading.eq_of_link {r : Reading} (hr : r.Valid) {l : Link} (hl : l.Valid)
    (h : l.text = r.text) :
    r.address = dashed l.a l.b l.c l.d ∧ r.token = l.token ∧ r.port = some l.port := by
  obtain ⟨ha, hb, hc, hd⟩ := hr.octets
  obtain ⟨ha', hb', hc', hd'⟩ := hl.octets
  have hoctet : ∀ {s}, Octet s → ∀ b ∈ s, isStemByte b = true :=
    fun h => stem_of_bytes h.2 (by decide) (by decide)
  -- The text in front of the address lies in the first label, and so does the rest.
  have hbefore : ∀ b ∈ r.before, isStemByte b = true := by
    obtain ⟨n, a, hna⟩ := List.exists_cons_of_ne_nil ha.1.1
    have hn : isDecimal n = true := ha.2 n (by rw [hna]; exact List.mem_cons_self)
    have htext : l.stem ++ dot :: l.routerHost = r.before ++ (utf8 "ip" ++ n :: (a ++ dash ::
        (r.b ++ dash :: (r.c ++ dash :: r.d)) ++ dash :: (r.token ++ (optional dash r.port ++
          (optional dot r.name ++ optional colon r.outer))))) := by
      rw [← Link.text, h, Reading.text, Reading.address, dashed, hna]
      rfl
    exact stem_of_before hl.no_ip hn (Link.stem_stemBytes hl) htext
  have hport : ∀ p ∈ r.port.toList, ∀ b ∈ p, isStemByte b = true := fun p hp =>
    stem_of_bytes (hr.port p (Option.mem_toList.mp hp)).2 (by decide) (by decide)
  have hparts : ∀ v ∈ [r.b, r.c, r.d, r.token] ++ r.port.toList,
      ∀ b ∈ v, isStemByte b = true := by
    simp only [List.cons_append, List.nil_append, List.forall_mem_cons]
    exact ⟨hoctet hb, hoctet hc, hoctet hd, stem_of_bytes hr.token (by decide) (by decide), hport⟩
  have htail : ∀ b ∈ (optional dot r.name ++ optional colon r.outer).head?,
      isStemByte b = false := by
    intro b hb
    cases hname : r.name <;> cases houter : r.outer <;> rw [hname, houter] at hb <;> cases hb <;>
      decide
  rw [Reading.text_eq_chain, Link.text] at h
  have hstem := stem_eq (Link.stem_stemBytes hl)
    (bytes_chain (by decide +kernel)
      (bytes_append (bytes_append hbefore (by decide +kernel)) (hoctet ha)) hparts) htail h
  have htoken := not_mem_of_bytes (b := dash) hr.token (by decide)
  have htoken' := not_mem_of_bytes (b := dash) hl.token (by decide)
  have hport' := not_mem_of_bytes (b := dash) hl.port (by decide)
  rw [Link.stem] at hstem
  cases hrp : r.port with
  | some p =>
    have hp := not_mem_of_bytes (b := dash) (hr.port p hrp).2 (by decide)
    rw [hrp] at hstem
    have hvs : ∀ v ∈ [l.b, l.c, l.d, l.token, l.port], dash ∉ v := by
      simp [hb'.dash_not_mem, hc'.dash_not_mem, hd'.dash_not_mem, htoken', hport']
    have hvs' : ∀ v ∈ [r.b, r.c, r.d, r.token] ++ [p], dash ∉ v := by
      simp [hb.dash_not_mem, hc.dash_not_mem, hd.dash_not_mem, htoken, hp]
    obtain ⟨hhead, hrest⟩ := chain_inj hvs hvs' rfl hstem
    simp only [List.cons_append, List.nil_append, List.cons.injEq, and_true] at hrest
    obtain ⟨hbEq, hcEq, hdEq, htokenEq, hportEq⟩ := hrest
    -- The digits of the first number follow the last "p".
    have hfirst : l.before ++ [0x69] ++ 0x70 :: l.a = r.before ++ [0x69] ++ 0x70 :: r.a := by
      simpa [utf8_ip] using hhead
    obtain ⟨-, haEq⟩ := append_cons_inj_right (not_mem_of_bytes ha'.2 (by decide))
      (not_mem_of_bytes ha.2 (by decide)) hfirst
    exact ⟨by rw [Reading.address, haEq, hbEq, hcEq, hdEq], htokenEq.symm, congrArg some hportEq.symm⟩
  | none =>
    -- Without a port, the second number of the link ends where "ip" and a number should.
    rw [hrp] at hstem
    have hshift : chain (l.before ++ utf8 "ip" ++ l.a ++ dash :: l.b) [l.c, l.d, l.token, l.port] =
        chain (r.before ++ utf8 "ip" ++ r.a) [r.b, r.c, r.d, r.token] := hstem
    have hvs : ∀ v ∈ [l.c, l.d, l.token, l.port], dash ∉ v := by
      simp [hc'.dash_not_mem, hd'.dash_not_mem, htoken', hport']
    have hvs' : ∀ v ∈ [r.b, r.c, r.d, r.token], dash ∉ v := by
      simp [hb.dash_not_mem, hc.dash_not_mem, hd.dash_not_mem, htoken]
    obtain ⟨hhead, -⟩ := chain_inj hvs hvs' rfl hshift
    have hsuffix : dash :: l.b <:+ r.before ++ (utf8 "ip" ++ r.a) :=
      ⟨l.before ++ utf8 "ip" ++ l.a, by rw [← List.append_assoc, ← hhead]⟩
    rcases List.suffix_or_suffix_of_suffix hsuffix (List.suffix_append r.before _) with hs | hs
    · have hdash : dash ∈ utf8 "ip" ++ r.a := hs.subset List.mem_cons_self
      have hnot : dash ∉ utf8 "ip" := by decide
      exact ((List.mem_append.mp hdash).elim hnot ha.dash_not_mem).elim
    · have hi : (0x69 : UInt8) ∈ dash :: l.b := hs.subset (by simp [utf8_ip])
      exact absurd hi (by simp [dash, not_mem_of_bytes hb'.2 (b := 0x69) (by decide)])

/-- The groups of the match on a link's host. -/
theorem find_link {r : Reading} (hr : r.Valid) {l : Link} (hl : l.Valid) (h : l.text = r.text) :
    ∃ m, find hostRe l.text = some m ∧ m.group 1 = dashed l.a l.b l.c l.d ∧
      m.group 2 = l.token ∧ m.group 3 = l.port := by
  have hplain : Plain (all hostParts) := by
    simp [hostParts, all, Plain, many, many1, opt, octet, upTo, byte, lit, noneOf, utf8_ip]
  have hsome := isSome_find_anchored hplain (consumes_hostParts.mpr ⟨r, hr, h, rfl⟩)
  obtain ⟨m, hm⟩ := Option.isSome_iff_exists.mp hsome
  obtain ⟨r', hr', htext, hcaps⟩ := consumes_hostParts.mp (consumes_of_find_anchored hm)
  obtain ⟨haddress, htoken, hport⟩ := Reading.eq_of_link hr' hl htext
  refine ⟨m, hm, ?_⟩
  simp [Match.group, hcaps, Reading.caps, haddress, htoken, hport]

/-! ## The address -/

theorem replaceByte_of_not_mem {old new : UInt8} {s : GoString} (h : old ∉ s) :
    replaceByte old new s = s := by
  rw [replaceByte]
  refine (List.map_congr_left fun b hb => ?_).trans (List.map_id s)
  have hne : b ≠ old := by
    rintro rfl
    exact h hb
  rw [if_neg hne, id]

theorem replaceByte_append (old new : UInt8) (s t : GoString) :
    replaceByte old new (s ++ t) = replaceByte old new s ++ replaceByte old new t :=
  List.map_append

theorem replaceByte_cons_self (old new : UInt8) (s : GoString) :
    replaceByte old new (old :: s) = new :: replaceByte old new s := by
  rw [replaceByte, List.map_cons, if_pos rfl]
  rfl

/-- Four numbers joined by one byte, with another in its place. -/
theorem replaceByte_joined {old new : UInt8} {a b c d : GoString} (ha : old ∉ a) (hb : old ∉ b)
    (hc : old ∉ c) (hd : old ∉ d) :
    replaceByte old new (a ++ old :: (b ++ old :: (c ++ old :: d))) =
      a ++ new :: (b ++ new :: (c ++ new :: d)) := by
  simp only [replaceByte_append, replaceByte_cons_self, replaceByte_of_not_mem ha,
    replaceByte_of_not_mem hb, replaceByte_of_not_mem hc, replaceByte_of_not_mem hd]

theorem IPv4.text_eq (ip : IPv4) : ip.text = itoa ip.a.val ++ dot :: (itoa ip.b.val ++
    dot :: (itoa ip.c.val ++ dot :: itoa ip.d.val)) := by
  simp [text, octets, join, List.intercalate]

def IPv4.dashed (ip : IPv4) : GoString :=
  Router.dashed (itoa ip.a.val) (itoa ip.b.val) (itoa ip.c.val) (itoa ip.d.val)

theorem not_mem_itoa {b : UInt8} (hb : isDecimal b = false) (n : Nat) : b ∉ itoa n :=
  not_mem_of_bytes (fun _ => isDecimal_of_mem_itoa) hb

theorem IPv4.replace_text (ip : IPv4) : replaceByte dot dash ip.text = ip.dashed := by
  rw [text_eq]
  exact replaceByte_joined (not_mem_itoa (by decide) _) (not_mem_itoa (by decide) _)
    (not_mem_itoa (by decide) _) (not_mem_itoa (by decide) _)

theorem IPv4.replace_dashed (ip : IPv4) : replaceByte dash dot ip.dashed = ip.text := by
  rw [text_eq]
  exact replaceByte_joined (not_mem_itoa (by decide) _) (not_mem_itoa (by decide) _)
    (not_mem_itoa (by decide) _) (not_mem_itoa (by decide) _)

/-- No octet of an address is refused. -/
theorem IPv4.octets_le (ip : IPv4) :
    ((ip.text.splitOn dot).any fun oct => 255 < (atoi oct).1) = false := by
  have hsplit : ip.text.splitOn dot = ip.octets := by
    refine List.splitOn_intercalate dot ?_ (by simp [octets])
    simp only [octets, List.forall_mem_cons, List.not_mem_nil, false_implies, implies_true,
      and_true]
    exact ⟨not_mem_itoa (by decide) _, not_mem_itoa (by decide) _, not_mem_itoa (by decide) _,
      not_mem_itoa (by decide) _⟩
  have hoctet : ∀ n : Fin 256, decide (255 < (atoi (itoa n.val)).1) = false := by
    intro n
    have hn := n.isLt
    rw [atoi_itoa (by omega), decide_eq_false_iff_not]
    omega
  rw [hsplit]
  simp only [octets, List.any_cons, List.any_nil, hoctet, Bool.or_self]

/-! ## Dispatch -/

/-- A host without brackets and its port come apart at the colon. -/
theorem stripPort_hostText {name : GoString} {port : Option GoString}
    (hname : ∀ b ∈ name, isNameByte b = true)
    (hport : ∀ p ∈ port, ∀ b ∈ p, isDecimal b = true) : stripPort (hostText name port) = name := by
  have hcolon := not_mem_of_bytes (b := colon) hname (by decide)
  have hopen := not_mem_of_bytes (b := 0x5B) hname (by decide)
  have hclose := not_mem_of_bytes (b := 0x5D) hname (by decide)
  cases port with
  | none => simp [stripPort, splitHostPort, hostText, optional, hcolon]
  | some p =>
    have hp : ∀ b, isDecimal b = false → b ∉ p := fun b => not_mem_of_bytes (hport p rfl)
    have htext : ∀ b, b ≠ colon → b ∉ name → isDecimal b = false → b ∉ name ++ colon :: p := by
      intro b hb hn hd
      simp [hb, hn, hp b hd]
    have hopen' := htext 0x5B (by decide) hopen (by decide)
    have hclose' := htext 0x5D (by decide) hclose (by decide)
    have hhead : (name ++ colon :: p).head? ≠ some 0x5B := fun h =>
      hopen' (List.mem_of_mem_head? h)
    have hcut : ((name ++ colon :: p).reverse.takeWhile (· ≠ colon)).reverse = p := by
      rw [List.reverse_append, List.reverse_cons, List.append_assoc, List.takeWhile_append_of_pos,
        List.singleton_append, List.takeWhile_cons_of_neg (by simp), List.append_nil,
        List.reverse_reverse]
      intro b hb
      have hne : b ≠ colon := by
        rintro rfl
        exact hp colon (by decide) (List.mem_reverse.mp hb)
      exact decide_eq_true hne
    have hi : (name ++ colon :: p).length - p.length - 1 = name.length := by
      rw [List.length_append, List.length_cons]
      omega
    unfold stripPort splitHostPort
    rw [hostText, optional]
    simp only [hcut, hi, List.take_left, if_neg hhead]
    simp [hcolon, hopen', hclose']

/-! ## The round trip -/

/-- A byte of `[a-z0-9-]`. -/
def isPrefixByte (b : UInt8) : Bool := isTokenByte b || b = dash

theorem pageToken_ne_nil (pod : GoString) : pageToken pod ≠ [] := by
  rw [pageToken]
  split_ifs with h
  · decide
  · exact h

theorem pageToken_bytes (pod : GoString) : ∀ b ∈ pageToken pod, isTokenByte b = true := by
  rw [pageToken]
  split_ifs with h
  · decide +kernel
  · exact fun b hb => (List.mem_filter.mp hb).2

/-- The page's token is the one the instance knows, if its name has a byte to keep. -/
theorem hostToken_eq_pageToken {pod : GoString} (h : ∃ b ∈ pod, isTokenByte b = true) :
    hostToken pod = pageToken pod := by
  obtain ⟨b, hb, htoken⟩ := h
  have hne : pod.filter isTokenByte ≠ [] :=
    List.ne_nil_of_mem (List.mem_filter.mpr ⟨hb, htoken⟩)
  rw [hostToken, pageToken, if_neg hne, if_neg hne]

/-- What stands in front of "ip". -/
def linkBefore (hostPrefix : GoString) : GoString :=
  if hostPrefix = [] then [] else hostPrefix ++ [dash]

theorem linkBefore_bytes {hostPrefix : GoString} (h : ∀ b ∈ hostPrefix, isPrefixByte b = true) :
    ∀ b ∈ linkBefore hostPrefix, isPrefixByte b = true := by
  rw [linkBefore]
  split_ifs
  · exact nofun
  · intro b hb
    rcases List.mem_append.mp hb with hb | hb
    · exact h b hb
    · rw [List.mem_singleton.mp hb]
      decide

section RoundTrip

variable (R : RouterHost) (hostPrefix : GoString) (ip : IPv4) (pod : GoString) (port : Nat)

def linkOf : Link where
  before := linkBefore hostPrefix
  a := itoa ip.a.val
  b := itoa ip.b.val
  c := itoa ip.c.val
  d := itoa ip.d.val
  token := pageToken pod
  port := itoa port
  routerHost := R.text

def readingOf : Reading where
  before := linkBefore hostPrefix
  a := itoa ip.a.val
  b := itoa ip.b.val
  c := itoa ip.c.val
  d := itoa ip.d.val
  token := pageToken pod
  port := some (itoa port)
  name := some R.name
  outer := R.port

theorem linkHost_eq_text :
    linkHost hostPrefix ip.text pod (itoa port) R.text = (linkOf R hostPrefix ip pod port).text := by
  rw [linkHost, ip.replace_text]
  simp [Link.text, Link.stem, linkOf, chain, linkBefore, IPv4.dashed, dashed]

theorem linkOf_text_eq :
    (linkOf R hostPrefix ip pod port).text = (readingOf R hostPrefix ip pod port).text := by
  rw [Reading.text_eq_chain]
  simp [Link.text, Link.stem, linkOf, readingOf, chain, optional, RouterHost.text, hostText]

variable {hostPrefix port}

theorem linkOf_valid (hpre : ∀ b ∈ hostPrefix, isPrefixByte b = true) :
    (linkOf R hostPrefix ip pod port).Valid where
  before := stem_of_bytes (linkBefore_bytes hpre) (by decide) (by decide)
  octets := ⟨octet_itoa _, octet_itoa _, octet_itoa _, octet_itoa _⟩
  token := pageToken_bytes pod
  port := fun _ => isDecimal_of_mem_itoa
  no_ip := R.no_ip

theorem readingOf_valid (hpre : ∀ b ∈ hostPrefix, isPrefixByte b = true) (hport : port ≤ 65535) :
    (readingOf R hostPrefix ip pod port).Valid where
  before := by
    intro b hb
    have hnl := not_mem_of_bytes (b := 0x0A) (linkBefore_bytes hpre) (by decide)
    rintro hmem
    rw [show utf8 "\n" = [0x0A] by decide, List.mem_singleton] at hmem
    exact hnl (hmem ▸ hb)
  octets := ⟨octet_itoa _, octet_itoa _, octet_itoa _, octet_itoa _⟩
  token_ne_nil := pageToken_ne_nil pod
  token := pageToken_bytes pod
  port := by
    rintro p ⟨⟩
    exact ⟨⟨itoa_ne_nil _, length_itoa_le (by decide) (by omega)⟩, fun _ => isDecimal_of_mem_itoa⟩
  name := by
    rintro n ⟨⟩
    exact ⟨R.name_ne_nil, R.name_bytes⟩
  outer := R.port_digits

/-- Decoding undoes encoding. -/
theorem decodeHost_linkHost (hpre : ∀ b ∈ hostPrefix, isPrefixByte b = true) (hpos : 1 ≤ port)
    (hport : port ≤ 65535) (defaultPort : Int) :
    decodeHost (linkHost hostPrefix ip.text pod (itoa port) R.text) defaultPort =
      .ok ⟨ip.text, port, pageToken pod⟩ := by
  obtain ⟨m, hm, haddress, htoken, hportText⟩ := find_link (readingOf_valid R ip pod hpre hport)
    (linkOf_valid R ip pod hpre) (linkOf_text_eq R hostPrefix ip pod port)
  have hip : replaceByte dash dot (m.group 1) = ip.text := by
    rw [haddress]
    exact ip.replace_dashed
  have hnum : atoi (m.group 3) = ((port : Int), true) := by
    rw [hportText]
    exact atoi_itoa (by omega)
  have hne : m.group 3 ≠ [] := by
    rw [hportText]
    exact itoa_ne_nil port
  have hrange : (!true || decide ((port : Int) < 1) || decide (65535 < (port : Int))) = false := by
    simp
    omega
  rw [linkHost_eq_text, decodeHost, hm]
  simp only [hip, ip.octets_le, Bool.false_eq_true, if_false, if_neg hne, hnum, hrange, htoken]
  rfl

theorem nameByte_of_tokenByte (b : UInt8) (hb : isTokenByte b = true) : isNameByte b = true := by
  simp only [isTokenByte, isNameByte, letter, Bool.or_eq_true] at hb ⊢
  tauto

theorem stripPort_linkHost (hpre : ∀ b ∈ hostPrefix, isPrefixByte b = true) :
    stripPort (linkHost hostPrefix ip.text pod (itoa port) R.text) =
      (linkOf R hostPrefix ip pod port).stem ++ dot :: R.name := by
  have hbefore : ∀ b ∈ linkBefore hostPrefix, isNameByte b = true := by
    intro b hb
    have hb := linkBefore_bytes hpre b hb
    rw [isPrefixByte, Bool.or_eq_true, decide_eq_true_eq] at hb
    rcases hb with hb | rfl
    · exact nameByte_of_tokenByte b hb
    · decide
  have hvalid : (linkOf R hostPrefix ip pod port).Valid := linkOf_valid R ip pod hpre
  have hstem := Link.stem_bytes (f := isNameByte) (by decide +kernel) (by decide +kernel)
    (fun b hb => nameByte_of_tokenByte b (tokenByte_of_decimal b hb)) nameByte_of_tokenByte
    hvalid hbefore
  have htext : linkHost hostPrefix ip.text pod (itoa port) R.text =
      hostText ((linkOf R hostPrefix ip pod port).stem ++ dot :: R.name) R.port := by
    rw [linkHost_eq_text, Link.text, hostText, List.append_assoc]
    rfl
  rw [htext]
  exact stripPort_hostText
    (bytes_append hstem (List.forall_mem_cons.mpr ⟨by decide, R.name_bytes⟩))
    fun p hp => (R.port_digits p hp).2

theorem RouterHost.text_ne_nil : R.text ≠ [] :=
  List.append_ne_nil_of_left_ne_nil R.name_ne_nil _

/-- The host of a link to a port of a Pod is proxied to that Pod and that port, and carries
the token the Pod itself knows. -/
theorem dispatch_linkHost (hpre : ∀ b ∈ hostPrefix, isPrefixByte b = true) (hpos : 1 ≤ port)
    (hport : port ≤ 65535) :
    let host := linkHost hostPrefix ip.text pod (itoa port) R.text
    let target : Target := ⟨ip.text, port, pageToken pod⟩
    dispatch R.text host = .proxy target ∧
      (∀ defaultPort, decodeHost host defaultPort = .ok target) ∧
      ((∃ b ∈ pod, isTokenByte b = true) → ∀ hostFQDN,
        (instanceEnv hostFQDN pod).lookup (utf8 "SESSION_ID") = some target.sessionID) := by
  intro host target
  have hdecode := decodeHost_linkHost R ip pod hpre hpos hport
  refine ⟨?_, hdecode, fun hpod hostFQDN => ?_⟩
  · have hname : stripPort R.text = R.name :=
      stripPort_hostText R.name_bytes fun p hp => (R.port_digits p hp).2
    have hsuffix : hasSuffix (stripPort host) (dot :: stripPort R.text) = true := by
      rw [hname, stripPort_linkHost R ip pod hpre, hasSuffix, List.isSuffixOf_iff_suffix]
      exact List.suffix_append _ _
    rw [dispatch, if_neg R.text_ne_nil, if_pos hsuffix, hdecode]
  · rw [instanceEnv, List.lookup_cons, beq_self_eq_true, hostToken_eq_pageToken hpod]

end RoundTrip

def exampleRouterHost : RouterHost where
  name := utf8 "direct.dev.test"
  port := some (utf8 "8080")
  name_ne_nil := by decide
  name_bytes := by decide +kernel
  port_digits := by
    rintro p ⟨⟩
    decide +kernel
  no_ip := by
    intro b _ h
    have hp : (0x70 : UInt8) ∈ hostText (utf8 "direct.dev.test") (some (utf8 "8080")) :=
      h.subset (by simp [utf8_ip])
    exact absurd hp (by decide)

/-- A host prefix that looks like an address, and a Pod whose token has digits only. -/
theorem dispatch_linkHost_ipLike :
    let host := linkHost (utf8 "ip1-2-3-4-5") (IPv4.text ⟨10, 244, 0, 16⟩) (utf8 "I-42") (itoa 8080)
      exampleRouterHost.text
    let target : Target := ⟨IPv4.text ⟨10, 244, 0, 16⟩, (8080 : Nat), pageToken (utf8 "I-42")⟩
    dispatch exampleRouterHost.text host = .proxy target ∧
      (∀ defaultPort, decodeHost host defaultPort = .ok target) ∧
      ((∃ b ∈ utf8 "I-42", isTokenByte b = true) → ∀ hostFQDN,
        (instanceEnv hostFQDN (utf8 "I-42")).lookup (utf8 "SESSION_ID") = some target.sessionID) :=
  dispatch_linkHost exampleRouterHost ⟨10, 244, 0, 16⟩ (utf8 "I-42") (by decide +kernel) (by decide +kernel)
    (by decide +kernel)


end TrainingPlatform.Router
