import IncrementalParsing.Unicode.Coding

/-!
# Break classes

The classes by which a text is cut into user-perceived characters, words and sentences.  Each table
of runs covers the code points in order; class `0` is all else, and `i + 1` the `i`-th name.  The
data are those of Unicode 16.
-/

namespace IncrementalParsing.Unicode

/-- The names of the classes of grapheme breaks, separated by blanks. -/
def graphemeBreakNames : List String :=
  ["cr", "control cn", "extend ex", "l", "lf", "lv", "lvt", "prepend pp",
   "regionalindicator ri", "spacingmark sm", "t", "v", "zwj"]

/-- Runs of one class of grapheme breaks, in order. -/
def graphemeBreakRuns : List (Nat × Nat) := decodePairs
  ["JCAFBCABbBCfOAcACMAACcfBAgPDbbCAGDbaGAcMDAAADAABDAABDAAADdHAFIJAKDAAACcNAbEDPAADgEAGDAIAAFDB",
   "ABDAADDcAAAIAAADbNAbKDfKAKDdJAIDIAADbHADDAAIDAACDAAEDcKACDdDABIEAIDcJAbHDAIbPDAKdFAADAKADAAC",
   "KHDDKADBKAAGDJABDbMAADBKdHAADAAADBKDDBABKBABKADIAADJABDbJAADBABDAKdHAADAACKBDDABDBACDCAADbNA",
   "BDCAADKABDAKdHAADAACKEDAABDAKAABKADbDABDbFAFDAAADBKdHAADAABDAKDDBABKBABKADGACDJABDbNAADdKAAD",
   "AKADBKCACKAACKADIAADcHAADCKADdGAADAACDDKAACDAADDGABDKABDbMAADBKdHAADAAAKBDAKADBKAACDAADDGABD",
   "KABDOAAKLABDBKdGABDAAADBKDDAACKAACKADAIHAADJABDbMAADBKeFAADDAADBKCDAAADAAGKADbBABKdMAADAAAKG",
   "DLAHDgBAADAAAKIDKAGDeIABDbKAADAAADAAADDABKdAANDAKEDAABDEAKDAAcDDIAADgFADDAKFDAABDBKBDbGABKBD",
   "DACDPADDMAADAAAKBDFAADOAADgBAfPEeHMfHLbfMACDdlBADDbLACDbMABDbNABDdPABDAKGDHKADBKKDIAADcMACDA",
   "CADhEABDcBAADhFACDDKBDCKDABKADFKCDnKABDBKADdIAAKADAKGDAAADAAADBAHDFKJDBAADcPAbODdAADDAKcOAJD",
   "DKCDcFAIDLABDAKbNAAKDDBKFDdHAADAKBDCKADAKEDcPAHKHDBKBDjHACDAAMDAKGDDAADFAADBAAKBDmFAdPDcaKAA",
   "CADANBCbHAGCdAAPCfPAcADlpNACDiMAADfPAbPDccJAFDgIABDhfnDADDAAJDbPABDePABDbaPAADCAADDAADbGABKB",
   "DAKDAADfCABKdBAPKBDbJAbBDMAADcFAHDbIAKDAKADLAbMECACDAKcOAADBKDDBKBDBKADcDAADeCAFDBKBDBKBDLAA",
   "DHAADAKcNAADdCAADAACDBABDEABDAAADcIAAKBDBKEAAKADoLABKADBKADBKAAAKADbBAAGbKHAGbKHAGbKHAGbKHAG",
   "bKHAGbKHAGbKHAGbKHAGbKHAGbKHAGbKHAGbKHAGbKHAGbKHAGbKHAGbKHAGbKHAGbKHAGbKHAGbKHAGbKHAGbKHAGbK",
   "HAGbKHAGbKHAGbKHAGbKHAGbKHAGbKHAGbKHAGbKHAGbKHAGbKHAGbKHAGbKHAGbKHAGbKHAGbKHAGbKHAGbKHAGbKHA",
   "GbKHAGbKHAGbKHAGbKHAGbKHAGbKHAGbKHAGbKHAGbKHAGbKHAGbKHAGbKHAGbKHAGbKHAGbKHAGbKHAGbKHAGbKHAGb",
   "KHAGbKHAGbKHAGbKHAGbKHAGbKHAGbKHAGbKHAGbKHAGbKHAGbKHAGbKHAGbKHAGbKHAGbKHAGbKHAGbKHAGbKHAGbKH",
   "AGbKHAGbKHAGbKHAGbKHAGbKHAGbKHAGbKHAGbKHAGbKHAGbKHAGbKHAGbKHAGbKHAGbKHAGbKHAGbKHAGbKHAGbKHAG",
   "bKHAGbKHAGbKHAGbKHAGbKHAGbKHAGbKHAGbKHAGbKHAGbKHAGbKHAGbKHAGbKHAGbKHAGbKHAGbKHAGbKHAGbKHAGbK",
   "HAGbKHAGbKHAGbKHAGbKHAGbKHAGbKHAGbKHAGbKHAGbKHAGbKHAGbKHAGbKHAGbKHAGbKHAGbKHAGbKHAGbKHAGbKHA",
   "GbKHAGbKHAGbKHAGbKHAGbKHAGbKHAGbKHAGbKHAGbKHAGbKHAGbKHAGbKHAGbKHAGbKHAGbKHAGbKHAGbKHAGbKHAGb",
   "KHAGbKHAGbKHAGbKHAGbKHAGbKHAGbKHAGbKHAGbKHAGbKHAGbKHAGbKHAGbKHAGbKHAGbKHAGbKHAGbKHAGbKHAGbKH",
   "AGbKHAGbKHAGbKHAGbKHAGbKHAGbKHAGbKHAGbKHAGbKHAGbKHAGbKHAGbKHAGbKHAGbKHAGbKHAGbKHAGbKHAGbKHAG",
   "bKHAGbKHAGbKHAGbKHAGbKHAGbKHAGbKHAGbKHAGbKHAGbKHAGbKHAGbKHAGbKHAGbKHAGbKHAGbKHAGbKHAGbKHAGbK",
   "HAGbKHAGbKHAGbKHAGbKHAGbKHAGbKHAGbKHAGbKHAGbKHAGbKHAGbKHAGbKHAGbKHAGbKHAGbKHAGbKHAGbKHAGbKHA",
   "GbKHAGbKHAGbKHAGbKHAGbKHAGbKHAGbKHAGbKHAGbKHAGbKHAGbKHAGbKHAGbKHAGbKHAGbKHAGbKHAGbKHAGbKHAGb",
   "KHAGbKHAGbKHAGbKHAGbKHAGbKHAGbKHAGbKHAGbKHAGbKHAGbKHAGbKHAGbKHAGbKHAGbKHAGbKHAGbKHAGbKHAGbKH",
   "AGbKHAGbKHAGbKHAGbKHAGbKHAGbKHAGbKHAGbKHAGbKHAGbKHAGbKHAGbKHAGbKHAGbKHAGbKHAGbKHAGbKHAGbKHAG",
   "bKHAGbKHAGbKHAGbKHAGbKHAGbKHAGbKHAGbKHAGbKHAGbKHAGbKHAGbKHAGbKHAGbKHAGbKHAGbKHAGbKHAGbKHAGbK",
   "HAGbKHAGbKHAGbKHAGbKHAGbKHAGbKHAGbKHAGbKHAGbKHAGbKHAGbKHAGbKHAGbKHAGbKHAGbKHAGbKHAGbKHAGbKHA",
   "GbKHAGbKHAGbKHAGbKHAGbKHAGbKHAGbKHAGbKHAGbKHAGbKHAGbKHAGbKHAGbKHAGbKHAGbKHAGbKHAGbKHAGbKHAGb",
   "KHAGbKHAGbKHAGbKHAGbKHAGbKHAGbKHAGbKHAGbKHAGbKHAGbKHAGbKHAGbKHAGbKHAGbKHAGbKHAGbKHAGbKHAGbKH",
   "AGbKHAGbKHAGbKHAGbKHAGbKHAGbKHAGbKHAGbKHAGbKHAGbKHAGbKHAGbKHAGbKHAGbKHAGbKHAGbKHAGbKHAGbKHAG",
   "bKHAGbKHAGbKHAGbKHAGbKHAGbKHAGbKHAGbKHAGbKHAGbKHAGbKHAGbKHAGbKHAGbKHAGbKHAGbKHAGbKHAGbKHAGbK",
   "HAGbKHAGbKHAGbKHAGbKHAGbKHAGbKHAGbKHAGbKHLAbGMDAdALcdcBAADcoAAPDPAPDmOAACjNABDePALCcaAAADoBA",
   "ADjEAEDgiFACDAABDEADDcHACDDAADkEABDcdMADDeAAEDbdMABDeOADDeFAKDdAADDhJAAKADAKdEAODcIAADBABDJA",
   "CDAKcMACKDDBKBDBAAIDAADJAAIdBACDcDAEDAKHDPABKcLAADLABDAKcPACKIDAKADAABIEADDAAAKADfLACKCDBKDD",
   "FAADBAADjMAADCKHDbEABDBKdGABDAAADAKADDKBABKBABKADIAADJABKBAGDCAEDeCAADBKFDAAADBAADAACDAKAABK",
   "CDAIADNABDfBACKHDBKCDAKADbGAADfAAADBKFDAKADBKADAKBDAKBDoKAADBKDDBADKBDAKBDbKABDfBACKHDBKADAK",
   "BDgJAADAKADBKHDgEAADAKADBADDAKEDpPACKIDAKBDpEAADEKAABKBADDAIAKAIAKADiMACKDDBABDDKADCAAKbLAJD",
   "cHAFDAKAIDDHAADIAFDBKCDcHAFIMDAKBDbjEAAKGDAAFDAKADfBAbFDAAAKGDAKBDAKBDhJAFDCAADAABDAAGDAIADe",
   "BAEKAABDAABKADAKADbfKABDBKIABDAIAKcPABKEDCABKCDbGAADbenEAPCADFAODcmmHALDCKCDjlPAEDdKAGDccLAA",
   "MCADMboDAADAAdGKGADDfAAADKABDemkKABDAADCbcfLAcNDBAbGDcbNAEDCAFDHCHDBAGDbNADDjDACDhlKAdGDDAdB",
   "DHAADNAADbFAEDAAODfePAGDAAbADBAGDAABDAAEDgDAADjPAGDbhGAADdMADDbpLADDpNABDcnPAGDgMAGDijKAbJJb",
   "pKAEDmalpPAbPCfPDhPCoPDoaPCcoppPA"]

/-- The names of the classes of word breaks, separated by blanks. -/
def wordBreakNames : List String :=
  ["aletter le", "cr", "doublequote dq", "extend", "extendnumlet ex", "format fo",
   "hebrewletter hl", "katakana ka", "lf", "midletter ml", "midnum mn", "midnumlet mb",
   "newline nl", "numeric nu", "regionalindicator ri", "singlequote sq", "wsegspace", "zwj"]

/-- Runs of one class of word breaks, in order. -/
def wordBreakRuns : List (Nat × Nat) := decodePairs
  ["JAAJBNACbBAAbBAAADDAAbADAALAAAMAAJOAKALEAbJBDAAFAAbJBJAANcDAABBAAGGAABAAAKBAABEAbGBAAbOBAAbn",
   "PBFAcBBgPEEBAABBBADBALABFAABAKCBAAABAAbDBAAfCBAAiKBAAGEkFBAAcFBBADBAAABAKcIBALABFAcMEAAAEAAB",
   "EAABEAAAEHAbKHDADHABAKKAFOFABLBAKEAAAGCAcKBbEEJOAAAOALAABBAEgCBAAABGEAOAAFEBBBEAADEBBJOCBBAA",
   "BOABBAEbNBbKEBAfIBKEABNAJOcABIEBBBAALAAABBAAEBAbFBDEABIEABCEABEEbBAbIBCEDAKBEAbHBAAFBAABOEAI",
   "EcJBbHEAOcAEdFBCEABbBEABGEJBBEBAJOAAPBCEAAHBBABBBAbFBAAGBAAABCADBBAAEABGEBABEBACEABHAAEDABBA",
   "ACBBEBAJOBBJAABAAAEBACEAAFBDABBBAbFBAAGBAABBAABBAABBBAAEAAEEDABEBACECAAEGADBAAABGAJOBECBAEKA",
   "CEAAIBAACBAAbFBAAGBAABBAAEBBAAEABHEAACEAACEBAABOABBBEBAJOIAABFEAACEAAHBBABBBAbFBAAGBAABBAAEB",
   "BAAEABGEBABEBACEGACEDABBAACBBEBAJOAAABPAAEABAAFBCACBAADBCABBAAABAABBCABBCACBCALBDAEECACEAADE",
   "BAABFAAENAJOPAEEHBAACBAAbGBAAPBBAAEABGEAACEAADEGABEAACBBAABBABBBEBAJOPAABCEAAHBAACBAAbGBAAJB",
   "AAEBBAAEABGEAACEAADEGABEFABBAABBBEBAJOAABBAELADEIBAACBAAcIBBEABGEAACEAADEABEACBAEGACBBEBAJOJ",
   "AFBAACEAAbBBCAbHBAAIBAAABBAGBCAAEDAFEAAAEAAHEFAJOBABEdMAAEBAGELAHEAAJOfGAAEBAIEKAGEAAJOcFAAB",
   "bGABEFAJOKAAEAAAEAAAEDABEHBAAcDBDAbDEAABEEBKEAAcDEIAAEgDAbDEAAJOLADEDACEAACEBAGECADEMALEAAAE",
   "JODEBAcFBAAABEAABBAcKBAAbeMBAADBBAGBAAABAADBBAcIBAADBBAcABAADBBAGBAAABAADBBAOBAAdIBAADBBAeCB",
   "BACEbPAPBPAfFBBAFBCAcgLBBAbABAbBbJBEAeKBCAKBGAbBBDEIAbCBCEKAbBBBELAMBAACBAABEdPAbPEIAAEBAJOc",
   "AACEAGAEJOFAfIBGAEBBEcBBAEABEAeFBJAbOBAALEDALEJAJOhPAKOcEAbGBEEdIAJEAAbMEBAAEJOFAJObFAbOEdAA",
   "EEcOBbAEHBCAJObAAIELACEbNBMEBBJOcLBNELAcDBbDEHAJOCACBJOcDBBAKBEAcKBBACBPACEAAbEEDBAEFBAEBBCE",
   "ABEAlPBdPEbbFBBAFBBAcFBBAFBBAHBAAABAAABAAABAAbOBBAdEBAAGBAAABCACBAAGBCADBBAFBDAMBEACBAAGBCAG",
   "bBAACbBAAAEAbCBGHABMJAAMBAAKBNEGAFOABFCAALOAAFJAAbBEGAAJGAAABMAABPAMBdCAcAEbAAABDAABBAJBAAAB",
   "CAEBFAABAAABAAABAADBAAKBBADBEAEBDAABbAAcIBdcMAdDBhbFAoEBFADBCEBBLAcFBAAABEAABBAdHBGAABOAAEbG",
   "BIAGBAAGBAAGBAAGBAAGBAAGBAAGBAAGBAAbPEcOAABbmPAAbBDAABcDAFEAAEIEABBfLABEBICAfKIAADIEAcKBAAfN",
   "BbAAbPBcPAPImPAcOIAAfHIgmkHAeiMBeCAcNBBAbaMBCAPBJOBBbDAcOBDEAAJEAAbOBBEePBBEbFAmFBBABBAAABAA",
   "HBbEAPBAECBAEDBAEbGBEEDAAEbCAdDBLABEdBBbBEJAJOFAbBEFBCAABAABBAEJObLBHEBAbGBMELAbMBCADEcOBNEN",
   "AABJOKAAEJAJOFAcIBNEIACBAEHBBEBAJOcAACEdBAAEAACEBABEEABEAAAEbNAKBEEBACBBEJAFBBAFBBAFBIAGBAAG",
   "BAAdJBFAhCBHEAABEBAJOFAclkDBLAbGBDAdABcdaDAGBLAEBEAAHAEJHAAMHAAEHAAAHAABHAABHAAJHgBBcAAbgKBb",
   "BAdPBBAdFBcHALBDAPECAAKLAPECABFbHACFALAAAMAAALAKbJAEBAAiGBBAAGGAAMDAALAAAMAAJOAKALEAbJBDAAFA",
   "AbJBKAdHIBEbOBCAFBBAFBBAFBBACBbLACGDALBAAbJBAAbCBAABBAAOBBANBcBAhKBeEAdEBiHAAEiBAbMBCAdABOAA",
   "EbOAbPBMAbNBEAcFBEEEAbNBBAcDBDAHBAAEBcJAjNBBAJOFAcDBDAcDBDAcHBHAdDBLAKBAAOBAAGBAABBAAKBAAOBA",
   "AGBAABBCAdDBLAbdGBIAbFBJAHBbHAFBAAcJBAAIBeEAFBBAABAAcLBAABBCAABBAbGBJAbGBIAbOBeAAbCBAABBJAbF",
   "BJAbJBeFAdHBFABBdPAABCEAABEEADEDBAACBAAbMBBACEDAAEbPAbMBCAbMBcCAHBAAbLBBEbIAdFBJAbFBJAbCBMAb",
   "BBgNAeIBdGAdCBMAdCBMAcDBDEHAJOFAJObLBCAEEAAbGBpJAcJBAABECABBPACBdGADEbMBJAABHAbFBKEbOAbBBDEc",
   "JAbEBbKAbGBIACEdEBOEbOAJOAEBBBEABIADEcMBKEBAAODAAEJAAOBAbIBGAJOFACEcDBNEAAJODAABBEABHAcCBAEB",
   "AABIACEcPBNEDBDADEAABEJOABAAABcCAbBBAAbIBLEFAAEBBAEdNAGBAAABAADBAAOBAAJBGAcOBLEEAJOFADEAAHBB",
   "ABBBAbFBAAGBAABBAAEBAABEABGEBABEBACEBAABFAAEEAEBBEBAGECAEEKAJBAAABBAABAAcFBAAABIEAAAEBAAEAAD",
   "EAAEEABAEABMABEbMAdEBbBEDBEAJODAAECBbNAcPBbDEBBAAABHAJOkFAcOBGEBAIEbGADBBEcBAcPBbAECAABKAJOc",
   "FAcKBMEABGAJOFAbDOdIAOEDAJOmFAcLBOEgEAdPBJObEAHBBAABBAHBAABBAAbHBFEAABEBADEABAEABBELAJOeFAHB",
   "BAcGBGEBAGEABAAABAEbKAABJEcHBGEABDEHAAEHAABKEcNBPECAABbBAeIBmGAcABOAJOFAIBAAcEBHEAAHEABOAJOb",
   "HAbNBBAbFEAANEeIAGBAABBAAcFBFECAAEAABEAAGEABAEHAJOFAFBAABBAAbPBEEAABEAAEEABGAJObdFAbCBDEIABE",
   "ABAEMBAAcBBGECAEEMAJOAEfEAABeOAdjJBgFAgOBbAAmDBkeLAgABOAecPBPGAEFBOEJApjKBEAceGBbklIAbNBbBEJ",
   "OgmFAcdIBGAbOBAAJOFAeOBAAJOFAbNBBAEEKAcPBGEIADBLAJOIAbEBEAbCBbkPAcMBCAJOmFAdPBhPAeKBDAAEABdG",
   "EGADEMBdPABBAAABAEKABEdppNADIAAGIAABIAAAIbbOACIdBAAINADIkjHAgKBEAMBCAIBGAJBCABEAADGbaeLAJOca",
   "FAcNEBAbGEcbNAEECAFEHGHEBAGEbNADEjDACEblKAfEBAAeGBAABBBAABBABBBADBAALBAAABAAGBAAeABAADBBAHBA",
   "AGBAAbLBAADBAAEBAAABCAGBAAbfDBBAbIBAAbIBAAbOBAAbIBAAbOBAAbIBAAbOBAAbIBAAbOBAAbIBAAHBBAdBObpP",
   "AdGEDAdBEHAAENAAEbFAEEAAOEeePAbOBFAFBnEAGEAAbAEBAGEAABEAAEEEAdNBcAAAEgPAcMBCAGEGBBAJODAABbeA",
   "AbNBAEbAAcLBDEJObnFAbLBDEJOnFAbNBBEABJOboEAGBAADBAABBAAOBAAmEBKAGEcIAeDBGEABDAJOekFADBAAbKBA",
   "ABBAAABBAABAAJBAADBAAABAAABFAABDAABAAABAAABAACBAABBAAABBAABAAABAAABAAABAAABAABBAAABBADBAAGBA",
   "ADBAADBAAABAAJBAAbABEACBAAEBAAbABchDAbJBFAbJBFAbJBfLAbJPbpKAEEhoPAJOmaeaGAAGbNAfPEhPAoPEcpoa",
   "PA"]

/-- The names of the classes of sentence breaks, separated by blanks. -/
def sentenceBreakNames : List String :=
  ["aterm at", "cr", "close cl", "extend ex", "format fo", "lf", "lower lo", "numeric nu",
   "oletter le", "scontinue sc", "sterm st", "sep se", "sp", "upper up"]

/-- Runs of one class of sentence breaks, in order. -/
def sentenceBreakRuns : List (Nat × Nat) := decodePairs
  ["IAANAGBNACbBAANALADDACDBABKABAAJIBKCAALAAbJOADAAADCAbJHADAAADGAAMbJAANIAAHADAAAFGAAHDAAHADDA",
   "bGOAAGObHHAAHHAOAHAOAHAOAHAOAHAOAHAOAHAOAHAOAHAOAHAOAHAOAHAOAHAOAHAOAHAOAHAOAHAOAHAOAHAOAHAO",
   "AHAOAHAOAHAOAHAOAHAOAHAOAHAOAHAOBHAOAHAOAHAOAHAOAHAOAHAOAHAOAHAOBHAOAHAOAHAOAHAOAHAOAHAOAHAO",
   "AHAOAHAOAHAOAHAOAHAOAHAOAHAOAHAOAHAOAHAOAHAOAHAOAHAOAHAOAHAOAHAOAHBOAHAOAHAOCHBOAHAOAHBOAHCO",
   "BHDOAHBOAHCOCHBOAHBOAHAOAHAOAHBOAHAOBHAOAHBOAHCOAHAOAHBOBHAJAOCHDJBOAHBOAHBOAHAOAHAOAHAOAHAO",
   "AHAOAHAOAHAOAHAOBHAOAHAOAHAOAHAOAHAOAHAOAHAOAHAOAHAOBHBOAHAOAHCOAHAOAHAOAHAOAHAOAHAOAHAOAHAO",
   "AHAOAHAOAHAOAHAOAHAOAHAOAHAOAHAOAHAOAHAOAHAOAHAOAHAOAHAOAHAOAHAOAHAOAHAOAHAOAHAOAHAOAHAOGHBO",
   "AHBOBHAOAHDOAHAOAHAOAHAOAHAOeEHAJcDHGJBHDALJNAEHGAAJAAAJbAAgPEAOAHAOAHAJAAAOAHBADHAKAOFAAOAA",
   "COAAAOAABOAHbAOAAIOcCHAOBHCOCHAOAHAOAHAOAHAOAHAOAHAOAHAOAHAOAHAOAHAOAHAOAHAOEHAOAHAAAOAHBOBH",
   "dCOcPHAOAHAOAHAOAHAOAHAOAHAOAHAOAHAOAHAOAHAOAHAOAHAOAHAOAHAOAHAOAHAOAHAOAHAAGEAOAHAOAHAOAHAO",
   "AHAOAHAOAHAOAHAOAHAOAHAOAHAOAHAOAHAOAHAOAHAOAHAOAHAOAHAOAHAOAHAOAHAOAHAOAHAOAHAOAHAOAHAOAHAO",
   "AHBOAHAOAHAOAHAOAHAOAHAOAHAOBHAOAHAOAHAOAHAOAHAOAHAOAHAOAHAOAHAOAHAOAHAOAHAOAHAOAHAOAHAOAHAO",
   "AHAOAHAOAHAOAHAOAHAOAHAOAHAOAHAOAHAOAHAOAHAOAHAOAHAOAHAOAHAOAHAOAHAOAHAOAHAOAHAOAHAOAHAOAHAO",
   "AHAOAHAOAHAOAHAOAHAOAHAOAHAOAHAOAHAOAHAAcFOBAAJCAAKBAcIHALGAcMEAAAEAABEAABEAAAEHAbKJDAEJLAFI",
   "FABKBAKEAAAFCLcKJbEEJIAABIAABJAEgCJALAJGEAIAAFEBJBEAADEBJJICJBAAJCLLAAFAJAEbNJbKEBAfIJKEAJNA",
   "JIcAJIEBJBAAKALAJBAAEBAbFJDEAJIEAJCEAJEEIAALAAALCABLAAbIJCEDAKJEAbHJAAFJAABIEAIEcJJbHEAIcAEd",
   "FJCEAJbBEAJGEJJBEBLJIAAPJCEAAHJBABJBAbFJAAGJAAAJCADJBAAEAJGEBABEBACEAJHAAEDABJAACJBEBAJIBJJA",
   "AJAAAEBACEAAFJDABJBAbFJAAGJAABJAABJAABJBAAEAAEEDABEBACECAAEGADJAAAJGAJIBECJAEKACEAAIJAACJAAb",
   "FJAAGJAABJAAEJBAAEAJHEAACEAACEBAAJOABJBEBAJIIAAJFEAACEAAHJBABJBAbFJAAGJAABJAAEJBAAEAJGEBABEB",
   "ACEGACEDABJAACJBEBAJIAAAJPAAEAJAAFJCACJAADJCABJAAAJAABJCABJCACJCALJDAEECACEAADEBAAJFAAENAJIP",
   "AEEHJAACJAAbGJAAPJBAAEAJGEAACEAADEGABEAACJBAAJBABJBEBAJIPAAJCEAAHJAACJAAbGJAAJJAAEJBAAEAJGEA",
   "ACEAADEGABEFABJAABJBEBAJIAABJAELADEIJAACJAAcIJBEAJGEAACEAADEAJEACJAEGACJBEBAJIJAFJAACEAAbBJC",
   "AbHJAAIJAAAJBAGJCAAEDAFEAAAEAAHEFAJIBABEMAcPJAEBJGEEAGJHEAAJIcGABJAAAJAAEJAAbHJAAAJAAJJAEBJI",
   "EAJBAEJAAAJAAGEAAJIBADJbPAAJbGABEFAJIKAAEAAAEAAAEDDBEHJAAcDJDAbDEAABEEJKEAAcDEIAAEdIAcKJbDEA",
   "JJIBLDAFJDEDJCEAJCEBJGECJDEMJLEAJAEJIDEBAcFOAAAOEAAOBAcKJAAAHbeLJAADJBAGJAAAJAADJBAcIJAADJBA",
   "cAJAADJBAGJAAAJAADJBAOJAAdIJAADJBAeCJBACEBAALDABLbGAPJPAfFOBAFHCAcgLJAAALbAJANbJJBDCAeKJCAKJ",
   "GAbBJDEIAbCJCEBLIAbBJBELAMJAACJAABELAdDJbPEBLAAAJDAAJAEBAJIbHAAKALDAAKALAACEAFAEJIFAfIJGAEJB",
   "EcBJAEAJEAeFJJAbOJAALEDALEHABLJIbNJBAEJKAcLJDAbJJFAKIcEAbGJEEDAdEJJEAAbMEBAAEJIFAJIMAAJDLDAb",
   "OEdAAEEcOJbAEHJAABLJIBLBABLKAIEIACLCEbNJMEBJJIcLJNELAcDJbDECABLCAJICACJJIcDJBLIHAOAHEAcKJBAC",
   "JPACEAAbEEDJAEFJAEBJCEAJEAlPHdPEAOAHAOAHAOAHAOAHAOAHAOAHAOAHAOAHAOAHAOAHAOAHAOAHAOAHAOAHAOAH",
   "AOAHAOAHAOAHAOAHAOAHAOAHAOAHAOAHAOAHAOAHAOAHAOAHAOAHAOAHAOAHAOAHAOAHAOAHAOAHAOAHAOAHAOAHAOAH",
   "AOAHAOAHAOAHAOAHAOAHAOAHAOAHAOAHAOAHAOAHAOAHAOAHAOAHAOAHAOAHAOAHAOAHAOAHAOAHAOAHAOAHAOAHAOAH",
   "AOAHAOAHAOAHAOAHAOAHAOAHAOAHAOAHAOAHAOAHAOAHAOAHAOAHAOIHAOAHAOAHAOAHAOAHAOAHAOAHAOAHAOAHAOAH",
   "AOAHAOAHAOAHAOAHAOAHAOAHAOAHAOAHAOAHAOAHAOAHAOAHAOAHAOAHAOAHAOAHAOAHAOAHAOAHAOAHAOAHAOAHAOAH",
   "AOAHAOAHAOAHAOAHAOAHAOAHAOAHAOAHAOAHAOAHAOAHAOAHAOAHAOAHAOAHAOAHAOIHHOFHBAFOBAHHHOHHHOFHBAFO",
   "BAHHAAAOAAAOAAAOAAAOHHHONHBAHHHOHHHOHHHOEHAABHEOAAAHCACHAABHEOCADHBABHDODAHHEOEACHAABHEOCAKN",
   "AFBEBFCABKCAHDDAABCABMEFANIABDAABLGABDCLbEAANEFAAJFAAAHKABDAHMABDAAMHdCAcAEbAAAODAAOBAAHCOBH",
   "COAHAAAOCAEOFAAOAAAOAAAOAADOAAAHDOAHDJAHBABHBOEAAODHDAAHbAAPOPHCJAOAHDJbhOADDbMABDbiKAbJObJH",
   "chAAFDGANDeOABDbOAJDbjCAbFDdOADDbPABDcaBAcPOcPHAOAHCOBHAOAHAOAHAOAHDOAHAOBHAOHHCOAHAOAHAOAHA",
   "OAHAOAHAOAHAOAHAOAHAOAHAOAHAOAHAOAHAOAHAOAHAOAHAOAHAOAHAOAHAOAHAOAHAOAHAOAHAOAHAOAHAOAHAOAHA",
   "OAHAOAHAOAHAOAHAOAHAOAHAOAHAOAHAOAHAOAHAOAHAOAHAOAHAOAHAOAHAOAHAOAHAOAHAOAHAOAHAOAHAOAHAOAHA",
   "OBHFAAOAHAOAHCEAOAHEACLDAcFHAAAHEAAHBAdHJGAAJOAAEbGJIAGJAAGJAAGJAAGJAAGJAAGJAAGJAAGJAAbPENDN",
   "ABDBAJDDAALAJLAALEAADPABLHDbkCAANAKALBACJJDBAHDAACDAAIJFEAAEJBAEJDAfFJBABEBACJAAfJJAADJEAcKJ",
   "AAfNJbAAbPJcPAPJbpPAbjlPJdPAfgiMJeCAcNJAAALbaMJAABLPJJIBJbDAAOAHAOAHAOAHAOAHAOAHAOAHAOAHAOAH",
   "AOAHAOAHAOAHAOAHAOAHAOAHAOAHAOAHAOAHAOAHAOAHAOAHAOAHAOAHAOAHAJDEAAJEAAAJAOAHAOAHAOAHAOAHAOAH",
   "AOAHAOAHAOAHAOAHAOAHAOAHAOAHAOAHAOCHBEePJBEAAALCAALbOAIJBAAOAHAOAHAOAHAOAHAOAHAOAHAOCHAOAHAO",
   "AHAOAHAOAHAOAHAOAHAOAHAOAHAOAHAOAHAOAHAOAHAOAHAOAHAOAHAOAHAOAHAOAHAOAHAOAHAOAHAOAHAOAHAOAHAO",
   "AHAOAHAOAHAOAHAOAHAOAHAOJHAOAHAOAHBOAHAOAHAOAHAOAHAOAHAJBAAOAHAOAHAJAOAHAOCHAOAHAOAHAOAHAOAH",
   "AOAHAOAHAOAHAOAHAOAHAOAHEOAHEOAHAOAHAOAHAOAHAOAHAOAHAOAHAOAHDOAHAOAHBOAHBAAOAHAAAHAAAHAOAHAO",
   "AHAOAHAObEACHAOAHAJCHGJAECJAEDJAEbGJEEDAAEbCAdDJBABLHABEdBJbBEHABLJIFAbBEFJCAAJAABJAEJIbLJHE",
   "AAALbGJMELAbMJCADEcOJNEGABLEAAJJIFAEJAEJJJIEJAAcIJNEIACJAEHJBEBAJICACLbGJCAAJCEdBJAEAJCEBJBE",
   "EJBEAJAEAJbHACJBAKJEEBLCJBEJAFJBAFJBAFJIAGJAAGJAAcKHAANHFAePHcCJHEALBEBAJIFAclkDJLAbGJDAdAJc",
   "baDAbgNJBAgJJcFAGHLAEHEAAJAEJJAAMJAAEJAAAJAABJAABJAAgLJcAAbgKJBDPAdPJBAdFJcHALJDAPEBKALBKBLB",
   "DGAPEAABKBAPDBABDGABKABAABKBLAKFDDAAKLAEJAAiGJBAAFAAALFABDBABKABAAJIBKCAALAAbJOADAAADCAbJHAD",
   "AAADAABDALBDAKAAdHJBEbOJCAFJBAFJBAFJBACJbLACFDALJAAbJJAAbCJAABJAAOJBANJcBAhKJeEAdEJiHAAEiBAb",
   "MJCAdAJOAAEbOAbPJMAbNJEAcFJEEEAbNJBAcDJDAHJAAEJcJAcHOcHHeNJBAJIFAcDODAcDHDAcHJHAdDJLAKOAAOOA",
   "AGOAABOAAKHAAOHAAGHAABHCAdDJLAbdGJIAbFJJAHJbHAAHBJCHAAcJHAAIHeEAFJBAAJAAcLJAABJCAAJBAbGJJAbG",
   "JIAbOJeAAbCJAABJJAbFJJAbJJeFAdHJFABJdPAAJCEAABEEADEDJAACJAAbMJBACEDAAEbFABLHAbMJCAbMJcCAHJAA",
   "bLJBEbIAdFJJAbFJJAbCJMAbBJgNAeIJdGAdCOMAdCHMAcDJDEHAJIFAJIFJbFOCAEEAAAJbFHpJAcJJAABECABJPACJ",
   "dGADEbMJJAAJHAbFJKEDAELbFAbBJDEDLcFAbEJbKAbGJIACEdEJOEBLbMAJIAEBJBEAJIADEcMJKEBAAIDLAEJAAIBA",
   "bIJGAJIFACEcDJNEAAJIAACLAJBEAJHAcCJAEBAAJIACEcPJNEDJBLBADEALBEJIAJAAAJAABLbPAbBJAAbIJLEBLAAB",
   "LAAAEBJAEdNAGJAAAJAADJAAOJAAJJALFAcOJLEEAJIFADEAAHJBABJBAbFJAAGJAABJAAEJAABEAJGEBABEBACEBAAJ",
   "FAAEEAEJBEBAGECAEEKAJJAAAJBAAJAAcFJAAAJIEAAAEBAAEAADEAAEEAJAEAJBLKABEbMAdEJbBEDJBLCAJIDAAECJ",
   "bNAcPJbDEBJAAAJHAJIkFAcOJGEBAIEAABLEAOLDJBEcBAcPJbAEBLAAAJKAJIcFAcKJMEAJGAJIFAbDIbLAbKJBAOED",
   "AJIBACLAAGJlIAcLJOEgEAbPObPHJIbEAHJBAAJBAHJAABJAAbHJFEAABEBADEAJAEAJBEALAAALIAJIeFAHJBAcGJGE",
   "BAGEAJAAAJAEbKAAJJEcHJGEAJDECABLCAAEHAAJKEcNJPEAABLAJbBAeIJmGAcAJOAJIFAIJAAcEJHEAAHEAJBLMAJI",
   "bHAbNJBAbFEAANEeIAGJAABJAAcFJFECAAEAABEAAGEAJAEHAJIFAFJAABJAAbPJEEAABEAAEEAJGAJIbdFAbCJDEBLG",
   "ABEAJAEMJAAcBJGECAEEBLKAJIAEfEAAJeOAdjJJgFAgOJbAAmDJkeLAgAJOAecPJPFAEFJOEJApjKJEAceGJbklIAbN",
   "JbBEJIgmFAcdIJGAbOJAAJIDABLeOJAAJIFAbNJBAEEALJAcPJGEBLGADJALKAJIIAbEJEAbCJbkPAcMJAABLJImFAbP",
   "ObPHbHAALgGAeKJDAAEAJdGEGADEMJdPABJAAAJAEKABENAbhpHJHAenFJcIAJJccoGADJAAGJAABJAAbcCJOAAJbMAC",
   "JBAAJNADJHAbiLJjaDAgKJEAMJCAIJGAJJCABEALDFbaeLAJIcaFAcNEBAbGEcbNAEECAFEHFHEBAGEbNADEjDACEblK",
   "AbJObJHbJOGHAAbBHbJObJHAOAABOBAAOBABOBADOAAHODHAAAHAAGHAAKHbJObJHBOAADOBAHOAAGOAAbJHBOAADOAA",
   "EOAAAOCAGOAAbJHbJObJHbJObJHbJObJHbJObJHbJObJHbJObLHBAbIOAAbIHAAFHbIOAAbIHAAFHbIOAAbIHAAFHbIO",
   "AAbIHAAFHbIOAAbIHAAFHAOAHBAdBIbpPAdGEDAdBEHAAENAAECAALbBAEEAAOEeePAJHAJbDHFAFHnEAGEAAbAEBAGE",
   "AABEAAEEEAdNHcAAAEgPAcMJCAGEGJBAJIDAAJbeAAbNJAEbAAcLJDEJIbnFAbLJDEJInFAbNJBEAJJIboEAGJAADJAA",
   "BJAAOJAAmEJKAGEcIAcBOcBHGEAJDAJIekFADJAAbKJAABJAAAJBAAJAAJJAADJAAAJAAAJFAAJDAAJAAAJAAAJAACJA",
   "ABJAAAJBAAJAAAJAAAJAAAJAAAJAABJAAAJBADJAAGJAADJAADJAAAJAAJJAAbAJEACJAAEJAAbAJchDAbJOFAbJOFAb",
   "JOeoLACDfhGAJIeaFAkgnPJbPAbadJJFAnNJBAbgiBJNAbndAJOAcgNJjkBAcbNJfoBAbdeKJEAbafPJknmfAAAFbNAf",
   "PEhPAoPEcpoaPA"]

end IncrementalParsing.Unicode
