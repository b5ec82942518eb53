import BuildingCode.Formula.Definition

/-! The formulas that every service has. Units are reduced by intermediates, kilonewtons to newtons
and kilonewton metres to newton millimetres, so that stresses come out in megapascals. -/
namespace BuildingCode.Formula

def exampleParam (name label : String) (unit : Option String) (min : Option Float)
    (sample : String) : Parameter :=
  { name, label, unit, min, placeholder := some s!"e.g. {sample}" }

def lengthParam (name label sample : String) : Parameter :=
  exampleParam name label (some "mm") (some 0.0) sample

def forceParam (name label sample : String) : Parameter :=
  exampleParam name label (some "kN") (some 0.0) sample

def leastPositive : Float := 1e-9

def positiveParam (name label : String) (unit : Option String) (sample : String) : Parameter :=
  exampleParam name label unit (some leastPositive) sample

def steelAxialStress : Definition :=
  { id := "steel-axial-stress"
    title := "Normal stress from axial force"
    description := some "Axial force N distributed over area A. Units are reduced to MPa (N/mm²)."
    displayExpression := "\\sigma = \\dfrac\x7bN\x7d\x7bA\x7d"
    params := [forceParam "N_kN" "Axial force N" "250",
      positiveParam "A_mm2" "Area A" (some "mm²") "1500"]
    intermediates := [⟨"N", "N", some "N", "N_kN * 1000"⟩]
    expression := "N / A_mm2"
    resultLabel := "σ"
    resultUnit := some "MPa" }

def steelShearStress : Definition :=
  { id := "steel-shear-stress"
    title := "Shear stress over a given shear area"
    description := some "Shear force V distributed over the shear area Aw supplied by the user."
    displayExpression := "\\tau = \\dfrac\x7bV\x7d\x7bA_w\x7d"
    params := [forceParam "V_kN" "Shear force V" "80",
      positiveParam "Aw_mm2" "Shear area Aw" (some "mm²") "900"]
    intermediates := [⟨"V", "V", some "N", "V_kN * 1000"⟩]
    expression := "V / Aw_mm2"
    resultLabel := "τ"
    resultUnit := some "MPa" }

def steelBendingStress : Definition :=
  { id := "steel-bending-stress"
    title := "Normal stress from bending for a given W"
    description := some "Bending moment M divided by the section modulus W supplied by the user."
    displayExpression := "\\sigma = \\dfrac\x7bM\x7d\x7bW\x7d"
    params := [exampleParam "M_kNm" "Bending moment M" (some "kN·m") (some 0.0) "35",
      positiveParam "W_mm3" "Section modulus W" (some "mm³") "2.5e6"]
    intermediates := [⟨"M", "M", some "N·mm", "M_kNm * 1_000_000"⟩]
    expression := "M / W_mm3"
    resultLabel := "σ"
    resultUnit := some "MPa" }

def utilization : Definition :=
  { id := "utilization"
    title := "Utilization ratio"
    description := some "Ratio of demand to capacity, usable for any check."
    displayExpression := "u = \\dfrac\x7b\\text\x7bdemand\x7d\x7d\x7b\\text\x7bcapacity\x7d\x7d"
    params := [exampleParam "demand" "Demand" none (some 0.0) "120",
      positiveParam "capacity" "Capacity" none "150"]
    expression := "demand / capacity"
    resultLabel := "u" }

def rectArea : Definition :=
  { id := "rect-area"
    title := "Rectangle area (reference)"
    displayExpression := "A = b \\cdot t"
    params := [lengthParam "b_mm" "Width b" "200", lengthParam "t_mm" "Thickness t" "10"]
    expression := "b_mm * t_mm"
    resultLabel := "A"
    resultUnit := some "mm²" }

def rectInertia : Definition :=
  { id := "rect-inertia"
    title := "Rectangle moment of inertia (Ix)"
    displayExpression := "I_x = \\dfrac\x7bb\\,t^3\x7d\x7b12\x7d"
    params := [lengthParam "b_mm" "Width b" "200", lengthParam "t_mm" "Height/thickness t" "10"]
    expression := "b_mm * t_mm ** 3 / 12"
    resultLabel := "Ix"
    resultUnit := some "mm⁴" }

def rectSectionModulus : Definition :=
  { id := "rect-section-modulus"
    title := "Rectangle section modulus (Wx)"
    displayExpression := "W_x = \\dfrac\x7bb\\,t^2\x7d\x7b6\x7d"
    params := [lengthParam "b_mm" "Width b" "200", lengthParam "t_mm" "Height t" "10"]
    expression := "b_mm * t_mm ** 2 / 6"
    resultLabel := "Wx"
    resultUnit := some "mm³" }

def kilonewtonToNewton : Definition :=
  { id := "unit-kN-to-N"
    title := "Conversion: kN to N"
    displayExpression := "N = 1000 \\cdot N_\x7bkN\x7d"
    params := [exampleParam "N_kN" "Force" (some "kN") none "12"]
    expression := "N_kN * 1000"
    resultLabel := "N"
    resultUnit := some "N" }

def newtonToKilonewton : Definition :=
  { id := "unit-N-to-kN"
    title := "Conversion: N to kN"
    displayExpression := "N_\x7bkN\x7d = \\dfrac\x7bN\x7d\x7b1000\x7d"
    params := [exampleParam "N" "Force" (some "N") none "12000"]
    expression := "N / 1000"
    resultLabel := "N_kN"
    resultUnit := some "kN" }

def kilonewtonMetreToNewtonMillimetre : Definition :=
  { id := "unit-kNm-to-Nmm"
    title := "Conversion: kN·m to N·mm"
    displayExpression := "M_\x7bN\\cdot mm\x7d = 10^6 \\cdot M_\x7bkN\\cdot m\x7d"
    params := [exampleParam "M_kNm" "Moment" (some "kN·m") none "3.5"]
    expression := "M_kNm * 1e6"
    resultLabel := "M"
    resultUnit := some "N·mm" }

def squareMillimetreToSquareMetre : Definition :=
  { id := "unit-mm2-to-m2"
    title := "Conversion: mm² to m²"
    displayExpression := "A_\x7bm^2\x7d = \\dfrac\x7bA_\x7bmm^2\x7d\x7d\x7b10^6\x7d"
    params := [exampleParam "A_mm2" "Area" (some "mm²") none "1500"]
    expression := "A_mm2 / 1e6"
    resultLabel := "A"
    resultUnit := some "m²"
    resultDigits := some 12 }

def builtinDefinitions : List Definition :=
  [steelAxialStress, steelShearStress, steelBendingStress, utilization, rectArea, rectInertia,
    rectSectionModulus, kilonewtonToNewton, newtonToKilonewton,
    kilonewtonMetreToNewtonMillimetre, squareMillimetreToSquareMetre]

end BuildingCode.Formula
