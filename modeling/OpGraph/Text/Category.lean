/-!
Classes of code points by their general category: letters, digits, punctuation, separators and the rest.
-/

namespace OpGraph.Text

inductive Category where
  | letter | capital | small | letterNumber | digit | punctuation | connector | separator | blank | control | other
  deriving DecidableEq, Repr

namespace Category

/-- All code points from zero on, as runs of a length, which is left out if it is one, and a mark: `u` capital and `l`
small letters, `o` other letters, `n` letter numbers, `d` digits, `c` connectors and `p` other punctuation, `s` blanks
and `z` other separators, `k` controls, `x` what is no character, `m` everything else. -/
def runs : String :=
  "32ks3pm6pm4p10d2p3m2p26u3pmcm26lpmpm33ksp5mp2mopmx7ml2p2mop3mp23um7u24lm8lulululululululululululululululululul" ++
  "ulululululululululu2lulululululululu2lululululululululululululululululululululululul2ululu3l2ulul2ul3u2l4ul2ul" ++
  "3u3l2ul2ululul2ulu2lul2ul3ulul2u2lou3l4ouoluoluolulululululululu2lululululululululu2luolul3ulululululululululu" ++
  "lulululululululululululululululululululu7l2ul2u2lul4ululululu69lo27l18o4m12o14m5o7momo129mululomul2xo3lpu4x2mu" ++
  "p3uxux2ul17ux9u35lu2l3u3lulululululululululululu5lulmul2u2l51u48lululululululululululululululululul8mululululu" ++
  "lulululululululululululululululululululululul2ululululululu2lululululululululululululululululululululululululu" ++
  "lulululululululululululululululululululululululx38u2xo6p41l2p2x3mx45mpmp2mp2mpm8x27o4x4o2p17x3m2pm2p13mpx3p43o" ++
  "21m10d4p2om99opo7mx7m2o7m2o10d3o2mo14p2xom30o27m2x89o11mo14x10d33o9m2om3po2x3m22o4mo9mo3mo5m2x15px25o3m2xpx11o" ++
  "5x24om6o9x8m42o24mx33m54o3mo18mo7m10o2m2p10dp16o3mx8o2x2o2x22ox7oxo3x4o2xmo7m2x2m2x3mo8xm4x2ox3o2m2x10d2o10mop" ++
  "m2x3mx6o4x2o2x22ox7ox2ox2ox2o2xmx5m4x2m2x3m3xm7x4oxo7x10d2m3omp10x3mx9ox3ox22ox7ox2ox5o2xmo8mx3mx3m2xo15x2o2m" ++
  "2x10dpm7xo6mx3mx8o2x2o2x22ox7ox2ox5o2xmo7m2x2m2x3m7x3m4x2ox3o2m2x10dmo6m10xmox6o3x3ox4o3x2oxox2o3x2o3x3o3x12o" ++
  "4x5m3x3mx4m2xo6xm14x10d11m5x5m8ox3ox23ox16o2xmo7mx3mx4m7x2mx3o2xo2x2o2m2x10d7xp8mo3mp8ox3ox23ox10ox5o2xmo7mx3m" ++
  "x4m7x2m6x2ox2o2m2x10dx2om12x4m9ox3ox41o2mo7mx3mx4mom4x3o8m3o2m2x10d10m6ox3mx18o3x24ox9oxo2x7o3xm4x6mxmx8m6x10d" ++
  "2x2mp12x48om2o7m4xm7o8mp10d2p37x2oxox5ox24oxox10om2o9mo2x5oxox7mx10d2x4o32xo3m15pmp11m10d16m4p2m8ox36o4x20mp2m" ++
  "5o11mx36mx15mx2m5p4m2p37x43o20mo10d6p6o4m4o3mo3m2o7m3o4m13o12mom10d6m38uxu5xu2x43lpo3l329ox4o2x7oxox4o2x41ox4o" ++
  "2x33ox4o2x7oxox4o2x15ox57ox4o2x67o2x3m9p20m3x16o10m6x86u2x6l2xp620omp17os26o2p3x75o3p3n8o7x18o4m9x19o3m2p9x18o" ++
  "2m12x13ox3ox2m12x52o32m3po3pmom2x10d6x10m6x11p3mxm10d6x89o7x5o2m34omo5x70o10x31ox12m4x12m4xm3x2p10d30o2x5o11x" ++
  "44o4x26o6x10dm3x34m23o5m2x2p53o10mx29m2xm10d6x10d6x7po6p2x31m49x5m47o17m8o3x10d7p28m2px3m30o13m2o10d44o14m8x4p" ++
  "36o20m3x5p10d3x3o10d36o2p9l7x43u2x3u8p8x3mp21m4om6om2o3mo5x44l63o13lo34l37o64mulululululululululululululululul" ++
  "ululululululululululululululululululululululululululululululululululululululululululululululululululululululul" ++
  "ulululu9lululululululululululululululululululululululululululululululululululululululululululululululululu9l8u" ++
  "6l2x6u2x8l8u8l8u6l2x6u2x8lxuxuxuxu8l8u14l2x8l8o8l8o8l8o5lx2l4uoml3m3lx2l4uo3m4l2x2l4ux3m8l5u3m2x3lx2l4uo2mx11s" ++
  "5x24p2z5xs15p2c3pm13pmpc10ps16xmo2x9m2po13m2px13o3x33m15x33m15x2mu4mu2ml3u2l3ulmu3m5u6mumumum4uml4ul4ol2m2l2u" ++
  "5mu4l4ml17m35nul4n3m4x376m4p29m2p252m25x11m21x776m14p79m2p31m10p403m22p63m4p32m2p374m2x32mx105m48u48lul3u2lulu" ++
  "lul4ulu2lu6l2o3ulululululululululululululululululululululululululululululululululululululululululululululululu" ++
  "lulu2l6mulul3mul5x4pm2p38lxl5xl2x56o7xop14xm23o9x7ox7ox7ox7ox7ox7ox7ox7ox32m47po32p2m12p34x26mx89m12x214m26x" ++
  "16ms3pm2on10p2m12pm9n6mp5o2m3n2op2mx86o2x4m3op90op4o5x43ox94ox16m32o36m11xm16o31mx480m6592o64m22157o3x55m9x46o" ++
  "2p269o3p16o10d2o20xulululululululululululululululululululululululo4mp10mpoulululululululululululululul2o2m70o" ++
  "10n2m6p8x23m9o2mululululululu3lulululululululululululululululululululululululululululululululo8lulul2ululululu" ++
  "lo2mululoulu3lulululululululululul5ul5ulululululululul4ulul5xulxlxlulul24x3oul3ol7om3om4om23o10m3x10m6x52o4p8x" ++
  "2m50o18m8x2p10d6x18m6o3pop2om10d28o8m2p23o13m11xp29o3x4m47o14m13pxo10d4x2p5om10o10d5ox41o14m9x3om8o2m2x10d2x4p" ++
  "23o3mo3m50omo3m2o2m5o2momo24x3o2p11o5m2p3o2m10x6o2x6o2x6o9x7ox7ox43lm4o9lo2m4x80l35o8mp2m2x10d6x11172o12x23o4x" ++
  "49o8452x366o2x106o38x7l12x5l5xom10om13ox5oxox2ox2ox108o17m16x363o2p16m64o2x54o7xm32x12o20m10p6x16m3p2c24p3c3px" ++
  "14pmp3mxpm2p4x5ox135o4x3pm6pm4p10d2p3m2p26u3pmcm26lpmpm7p89o3x6o2x6o2x6o2x3o3x7mx7m13x2m2x12ox26ox19ox2ox15o2x" ++
  "14o34x123o5x3p4x45m3x9m53n26mx13m3xm47x46m130x29o3x49o15x28m4x32o4m9x20on8on5x38o5m5x30oxp36o4x8op5n42x40u40l" ++
  "78o2x10d6x36u4x36l4x40o8x52o11xp11ux15ux7ux2ux11lx15lx7lx2l67x311o9x22o10x8o24x6ox42ox9o69x6o2xox44ox2o3xo2x" ++
  "23oxp8m23o9m31o8x9m48x19ox2o5x5m22o6m3xp26o5xp64x56o4x2m2o16m2x46mo3mx2m5x4m4ox3ox29o2x3m4x10m7x9p7x29o2mp29o" ++
  "3m32x8om28o2m4x5m7p9x54o3x7p22o2x8m19o5x8m18o7x4p12x7m80x73o55x51u13x51l7x6m36o4m8x10d294x31mx42ox2mp2x2o75x3m" ++
  "29o10mo8x22o15m5p22x18o4m4p38x21o7m20x23o9x3m53o15m7p4x20m10dm2o2mo9x4m45o11m2px4pm13x25o7x10d6x3m36o14mx10d4p" ++
  "o2mo8x35om2po9x3m48o14m4o4p4mp2m10dopo3px20m11x18ox25o12m6pm2om62x7oxox4ox15ox10op6x47o12m5x10d6x4mx8o2x2o2x" ++
  "22ox7ox2ox5ox2mo7m2x2m2x3m2xo6xm5x5o2m2x7m3x5m139x53o18m4o5p10d2pxpm3o30x48o20m2opo8x10d166x47o7m2x9m23p4o2m" ++
  "34x48o17m3po11x10d6x13p19x43o13mop6x10d54x27o2x15m4x10d2m3pm7o185x44o15mp100x32u32l10d9m12x8o2xo2x8ox2ox24o6mx" ++
  "2m2x4momo2m3p9x10d70x8o2x39o7m2x7mopom27xo10m40o7mo4m8pm8xo11m46o16m3po5p13x73o7x10p246x9ox37o8mx8mo5p10x10d" ++
  "19m3x2p30o2x22mx14m73x7ox2ox38o6m3xmx2mx7mom8x10d6x6ox2ox32o5mx2mx5mo7x10d310x19o4m2p7x2mom13ox34o7m3x5m13p10d" ++
  "86xo15x50m13xp922o102x111nx5p11x196o2636x97o2p13x1072o16xm6o15m4010x583o8633x569o7x31ox10d4x2p79ox10d6x30o2x5m" ++
  "p10x48o7m5p4m4opm10x10dx7mx21o5x19o688x32u32l23m4p101x75o4xmo55m7x4m13o64x2opom11x2m14x6136o8x1238o42x9o8935x" ++
  "4ox7ox2ox291o15xo29x3o2xo14x4o8x396o2308x107o5x13o3x9o7x10o2x3mp4704x46m2x23m9x116m60x246m10x39m2x74m8x112m21x" ++
  "70m122x20m12x20m12x87m9x25m135x26u26l26u7lx18l26u26lux2u2xu2x2u2x4ux8u4lxlx7lx11l26u26l2ux4u2x8ux7ux26l2ux4ux" ++
  "5uxu3x7ux26l26u26l26u26l26u26l26u26l26u26l26u28l2x25um25lm6l25um25lm6l25um25lm6l25um25lm6l25um25lm6lul2x50d" ++
  "647m5p15x5mx15m1104x10lo20l6x6l213x7mx17m2x7mx2mx5m5x62o33xm112x45o3x7m7o2x10d4xom320x30om17x44o4m10d5xm464x" ++
  "28o4m10d742x7ox4ox2ox15ox197o2x16m41x34u34l7mo4x10d4x2p785x68m76x61m194x4ox27ox2oxo2xox10ox4oxoxo6xo4xoxoxox3o" ++
  "x2oxo2xoxoxoxoxox2oxo2x4ox7ox4ox4oxox10ox17o5x3ox5ox17o52x2m270x44m4x100m12x15m2x15mx15mx37m10x174m56x29m13x" ++
  "44m4x9m7x2m14x6m154x984m4x17m3x13m3x119m4x95m6x12m4xm15x12m4x56m8x10m6x40m8x30m2x2m78x340m12x14m2x13m3x9m7x46m" ++
  "x7m8x14m4x9m7x9m7x147mx55m37x10d1030x42720o32x4153o7x222o2x5762o14x7473o15x622o2466x542o1506x4939o5x4192o" ++
  "712016x240m196112x"

/-- The mark of a code point, where `n` is the length read of the run at the front. -/
def markFrom (n : Nat) : List Char → Nat → Char
  | [], _ => 'x'
  | c :: cs, u =>
    if c.isDigit then markFrom (10 * n + (c.toNat - 48)) cs u
    else
      let size := max n 1
      if u < size then c else markFrom 0 cs (u - size)

def mark (u : Nat) : Char :=
  markFrom 0 runs.toList u

def marks : Category → List Char
  | letter => ['u', 'l', 'o']
  | capital => ['u']
  | small => ['l']
  | letterNumber => ['n']
  | digit => ['d']
  | punctuation => ['c', 'p']
  | connector => ['c']
  | separator => ['s', 'z']
  | blank => ['s']
  | control => ['k']
  | other => ['k', 'x']

def contains (c : Category) (u : Nat) : Bool :=
  c.marks.contains (mark u)

end Category

end OpGraph.Text
