import IncrementalParsing.Unicode.Coding

/-!
# Case orbits

Two code points with the same simple case folding are in one orbit.  Most orbits are pairs and lie
in runs: `casePairRuns` gives the distance to the first code point of the run before, the number of
pairs less one, the step between them and the distance inside a pair.  `largeCaseOrbits` lists the
others.  The data are those of Unicode 16.
-/

namespace IncrementalParsing.Unicode

/-- Runs of pairs, as four numbers each. -/
def casePairRuns : List Nat := decode
  ["eBJBcALGBcAIGBcAgMEBcAGbABcAbCGBcAHABbnlPcAABhJBbHCBdCCCBHHCBbBbGCBcPCCBHABmDBABnCBBCBEABmOB",
   "ABBCBBmNCABBDABePBABmKBABmLBABBCABmNBABmPBABgBBABnDBABnBBABBCABkDBABkgeBBABnDBABnFBABiCBABnG",
   "BCCBGABnKBABBCABnKDABBCABnKBABBCBBnJCBCBEABnLBABBEABBDABdIOHCBbBICBbGABBEbDCBcKICBbIABckcLBA",
   "BBDABckcIBBBckdPCABBDABeFBABeHBECBKABckbPBABckbMBABckbOKABkfePFABkfeLDABkfgHBABkfcIBABkfeEEA",
   "BkfeEBABcjpHBABkfeBFABcjpNMABcjoHFABkfeDFABkfcKbGABkfbFBABkfbCnCBCBGABBFCBiCEABhEHABcGCCBcFE",
   "ABeACBBdPCABbmeDBBCcADBCcADABcAEBCcADBBcAGBBcADBBcADBBcAGABbmdDbPABIJLCBbKABHFABBDABBGPBfAbA",
   "BBcADBCcADHBcAJBBcAEGBcAIEBcAdFABBEOCBcGbKCBdGABPBGCBPcPCBgBcFBdAlgPcFBbmgAcHABbmgAGABbmgADc",
   "KBlmAcNCBlmAckDePBjhnAfAFBIijJABBpAABikaEEABooGbBABikdIhCcPCBgCbJCBdOcPCBgAHBIbAFBIbAHBIbAHB",
   "IbAFBIbBDCIPHBIbABBeKCDBfGEBBgECBBiACBBhACBBhOEHBIbAHBIbAHBIbABBIDABJbAABJNBBIbABBIFABHOABJb",
   "dPABbMcOPBbAcDABBddDbJBbKheKcPBdAgAABBHCCBLABBDABBLdBCBgLBCBHABBhjeOECBMbACBdENCBkCGCBbAbOCB",
   "eHBCBFECBNABBFBCBEABdACJCBbNABdkABHCBbDBCBFABBEABBGCCBbPABBfdbAABBebMbJBcAenPcHBcIlAcDBcImAK",
   "BcHMOBcHbAGBcHIBBcHgoMdCBeAnAbFBcAlfAbPBcAffkAbPBcAhkmAcBBcC"]

/-- The orbits of more than two code points. -/
def largeCaseOrbits : List (List Nat) :=
  [[75, 107, 8490],
   [83, 115, 383],
   [181, 924, 956],
   [197, 229, 8491],
   [452, 453, 454],
   [455, 456, 457],
   [458, 459, 460],
   [497, 498, 499],
   [837, 921, 953, 8126],
   [914, 946, 976],
   [917, 949, 1013],
   [920, 952, 977, 1012],
   [922, 954, 1008],
   [928, 960, 982],
   [929, 961, 1009],
   [931, 962, 963],
   [934, 966, 981],
   [937, 969, 8486],
   [1042, 1074, 7296],
   [1044, 1076, 7297],
   [1054, 1086, 7298],
   [1057, 1089, 7299],
   [1058, 1090, 7300, 7301],
   [1066, 1098, 7302],
   [1122, 1123, 7303],
   [7304, 42570, 42571],
   [7776, 7777, 7835]]

end IncrementalParsing.Unicode
